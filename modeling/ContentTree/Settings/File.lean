import ContentTree.Disk
import ContentTree.Settings.Text

/-!
The file that settings are kept in. It is created with the defaults when it is first asked for, and
settings without a text leave it as it is.
-/

namespace ContentTree

inductive SettingsError
  | unreadable (path : String)
  | invalid (path : String)
  | noDirectory (path : String)
  | noText
  | unwritable (path : String)
  deriving DecidableEq, Repr

def SettingsError.message : SettingsError → String
  | .unreadable path => s!"Failed to read chktree config {path}"
  | .invalid path => s!"Invalid chktree config {path}"
  | .noDirectory path => s!"Failed to create chktree config directory {path}"
  | .noText => "Failed to encode chktree config"
  | .unwritable path => s!"Failed to write chktree config {path}"

namespace Settings

/-- The directory of settings: the one given, or a hidden one in the home directory. -/
def directory (given : Option String) (home : String) : String :=
  given.getD (Path.join home ".chktree")

/-- The file of settings in their directory. -/
def file (directory : String) : String := Path.join directory "config.toml"

/-- Creates the directory first, then writes the text. -/
def save (d : Disk) (path : String) (s : Settings) : Except SettingsError Unit × Disk :=
  match d.makeDirectories (Path.parents path) with
  | (.error _, d) => (.error (.noDirectory ((Path.parents path).headD "")), d)
  | (.ok (), d) =>
    match s.render? with
    | none => (.error .noText, d)
    | some text =>
      match d.writeFile path text.toUTF8 with
      | .error _ => (.error (.unwritable path), d)
      | .ok d => (.ok (), d)

/-- Reads the settings at `path`, or writes the defaults there if there is nothing. -/
def load (d : Disk) (path : String) : Except SettingsError Settings × Disk :=
  match d.open? path with
  | .error _ =>
    let (result, d) := save d path .default
    (result.map fun _ => .default, d)
  | .ok _ =>
    match (d.contentAt path).toOption.bind fun c => String.fromUTF8? c.toByteArray with
    | none => (.error (.unreadable path), d)
    | some text =>
      match parse? text with
      | none => (.error (.invalid path), d)
      | some s => (.ok s, d)

/-- Falls back to the defaults on any error. -/
def loadOrDefault (d : Disk) (path : String) : Settings × Disk :=
  let (result, d) := load d path
  (result.toOption.getD .default, d)

end Settings

end ContentTree
