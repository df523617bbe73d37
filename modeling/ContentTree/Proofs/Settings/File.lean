import ContentTree.Proofs.Directories
import ContentTree.Proofs.Settings.Text
import ContentTree.Settings.File

/-!
# Settings are read back from their file

What was saved is loaded again as it was, and a file from which keys were left out gives the
defaults for those keys. Settings that have no text leave every file as it is. All of this is about
the reader and the writer of `ContentTree.Toml`, which stand for the format library of the client.
-/

namespace ContentTree

theorem fromUTF8?_toUTF8 (text : String) : String.fromUTF8? text.toUTF8 = some text := by
  rw [String.fromUTF8?, dif_pos (show text.toUTF8.IsValidUTF8 from text.isValidUTF8)]
  rfl

/-- A file can be opened at this path once the directories that lead there are made. -/
def Disk.Placeable (d : Disk) (path : String) : Prop :=
  ∃ made object opened, d.makeDirectories (Path.parents path) = (.ok (), made) ∧
    made.openOrCreate path = .ok (object, opened)

namespace Settings

variable {d made : Disk} {path text : String} {s : Settings}

theorem load_of_contentAt {c : FileContent} (hcontent : d.contentAt path = .ok c)
    (htext : c.toByteArray = text.toUTF8) (hparse : parse? text = some s) :
    load d path = (.ok s, d) := by
  obtain ⟨object, hopen, -⟩ := Disk.contentAt_eq_ok.1 hcontent
  have hread : ((d.contentAt path).toOption.bind fun c => String.fromUTF8? c.toByteArray) =
      some text := by
    rw [hcontent]
    exact (congrArg _ htext).trans (fromUTF8?_toUTF8 text)
  simp only [load, hopen, hread, hparse]

/-- Saving fails before it writes, or writes the text to a file that it has opened. -/
theorem save_cases (d : Disk) (path : String) (s : Settings) :
    (∃ e, save d path s = (.error e, (d.makeDirectories (Path.parents path)).2) ∧
      (s.render? = none ∨ ¬ d.Placeable path)) ∨
    ∃ text made object opened, s.render? = some text ∧
      d.makeDirectories (Path.parents path) = (.ok (), made) ∧
      made.openOrCreate path = .ok (object, opened) ∧
      save d path s = (.ok (), opened.setContent object (.ofByteArray text.toUTF8)) := by
  unfold save
  rcases hmade : d.makeDirectories (Path.parents path) with ⟨kind | done, made⟩
  · refine .inl ⟨_, rfl, .inr ?_⟩
    rintro ⟨made', object, opened, hmade', -⟩
    cases hmade.symm.trans hmade'
  · rcases htext : s.render? with _ | text
    · exact .inl ⟨_, rfl, .inl rfl⟩
    · rcases hopened : made.openOrCreate path with kind | ⟨object, opened⟩
      · have hwrite : made.writeFile path text.toUTF8 = .error kind := by
          rw [Disk.writeFile, hopened]
          rfl
        refine .inl ⟨.unwritable path, by simp only [hwrite], .inr ?_⟩
        rintro ⟨made', object, opened, hmade', hopened'⟩
        cases hmade.symm.trans hmade'
        cases hopened.symm.trans hopened'
      · have hwrite : made.writeFile path text.toUTF8 =
            .ok (opened.setContent object (.ofByteArray text.toUTF8)) := by
          rw [Disk.writeFile, hopened]
          rfl
        exact .inr ⟨text, made, object, opened, rfl, rfl, hopened, by simp only [hwrite]⟩

theorem sound_save (h : d.Sound) (path : String) (s : Settings) : (save d path s).2.Sound := by
  have hsound := (h.makeDirectories (Path.parents path)).1
  rcases save_cases d path s with
    ⟨e, hsave, -⟩ | ⟨text, made, object, opened, -, hmade, hopened, hsave⟩
  · rw [hsave]
    exact hsound
  · rw [hmade] at hsound
    rw [hsave]
    exact (hsound.openOrCreate hopened).1.setContent _ _

/-- A failure leaves every file as it is. -/
theorem contentAt_of_save_error (h : d.Sound) {e : SettingsError}
    (hfail : (save d path s).1 = .error e) : (save d path s).2.objects = d.objects ∧
      ∀ {other : String} {c : FileContent}, d.contentAt other = .ok c →
        (save d path s).2.contentAt other = .ok c := by
  obtain ⟨-, hgrows⟩ := h.makeDirectories (Path.parents path)
  rcases save_cases d path s with ⟨e', hsave, -⟩ | ⟨text, made, object, opened, -, -, -, hsave⟩
  · rw [hsave]
    exact ⟨hgrows.objects, hgrows.contentAt h⟩
  · rw [hsave] at hfail
    cases hfail

theorem contentAt_of_save_ok (h : d.Sound) (hok : (save d path s).1 = .ok ()) :
    ∃ text, s.render? = some text ∧
      (save d path s).2.contentAt path = .ok (.ofByteArray text.toUTF8) := by
  rcases save_cases d path s with
    ⟨e, hsave, -⟩ | ⟨text, made, object, opened, htext, hmade, hopened, hsave⟩
  · rw [hsave] at hok
    cases hok
  · have hsound := (h.makeDirectories (Path.parents path)).1
    rw [hmade] at hsound
    obtain ⟨hsound', -, hopen, -⟩ := hsound.openOrCreate hopened
    obtain ⟨parent, name, -, hfind⟩ := Disk.open?_eq_file.1 hopen
    rw [hsave]
    refine ⟨text, htext, Disk.contentAt_eq_ok.2 ⟨object, ?_, ?_⟩⟩
    · exact (Disk.extends_setContent _ _ _).open? hopen
    · exact Disk.content_setContent_self (hsound'.bound hfind) _

theorem save_eq_ok_iff : (save d path s).1 = .ok () ↔ s.Writable ∧ d.Placeable path := by
  rw [← exists_render?_iff]
  rcases save_cases d path s with
    ⟨e, hsave, hfail⟩ | ⟨text, made, object, opened, htext, hmade, hopened, hsave⟩
  · rw [hsave]
    refine ⟨fun hok => absurd hok (by simp), ?_⟩
    rintro ⟨⟨text, htext⟩, hplace⟩
    rcases hfail with hnone | hplace'
    · rw [htext] at hnone
      cases hnone
    · exact absurd hplace hplace'
  · rw [hsave]
    exact ⟨fun _ => ⟨⟨text, htext⟩, made, object, opened, hmade, hopened⟩, fun _ => rfl⟩

/-- What was saved is loaded again, keys that are left out of its text have their defaults, and
settings that have no text change no file. -/
theorem load_save (h : d.Sound) (path : String) (s : Settings) :
    (s.Writable →
      ((save d path s).1 = .ok () ↔ d.Placeable path) ∧
      ((save d path s).1 = .ok () → ∃ text, s.render? = some text ∧
        (save d path s).2.contentAt path = .ok (.ofByteArray text.toUTF8) ∧
        load (save d path s).2 path = (.ok s, (save d path s).2)) ∧
      ∀ k : Kept, ∃ text, Toml.render? (k.sections s.sections) = some text ∧
        ∀ (disk : Disk) (c : FileContent), disk.contentAt path = .ok c →
          c.toByteArray = text.toUTF8 → load disk path = (.ok (s.keeping k), disk)) ∧
    (¬ s.Writable →
      (∃ e, (save d path s).1 = .error e) ∧ (save d path s).2.objects = d.objects ∧
      ∀ (other : String) (c : FileContent), d.contentAt other = .ok c →
        (save d path s).2.contentAt other = .ok c) := by
  refine ⟨fun hwritable => ⟨?_, fun hok => ?_, fun k => ?_⟩, fun hlarge => ?_⟩
  · rw [save_eq_ok_iff, and_iff_right hwritable]
  · obtain ⟨text, htext, hcontent⟩ := contentAt_of_save_ok h hok
    obtain ⟨whole, hwhole, hparse⟩ := exists_render?_kept hwritable .all
    rw [Kept.sections_all] at hwhole
    rw [keeping_all] at hparse
    obtain rfl : whole = text := Option.some.inj (hwhole.symm.trans htext)
    refine ⟨whole, htext, hcontent, ?_⟩
    exact load_of_contentAt hcontent (FileContent.toByteArray_ofByteArray _) hparse
  · obtain ⟨text, htext, hparse⟩ := exists_render?_kept hwritable k
    exact ⟨text, htext, fun disk c hcontent hbytes => load_of_contentAt hcontent hbytes hparse⟩
  · have hfail : ∃ e, (save d path s).1 = .error e := by
      rcases hresult : (save d path s).1 with e | done
      · exact ⟨e, rfl⟩
      · exact absurd (save_eq_ok_iff.1 hresult).1 hlarge
    obtain ⟨e, he⟩ := hfail
    obtain ⟨hobjects, hcontent⟩ := contentAt_of_save_error h he
    exact ⟨⟨e, he⟩, hobjects, fun _ _ => hcontent⟩

/-- Settings with an address that no simple form of a string can hold. -/
def quoting : Settings := { Settings.default with daemon := ⟨"a\"b'\\\n\x00", 7⟩ }

/-- Settings with a number that has no text. -/
def vast : Settings := { Settings.default with daemon := ⟨"", 9223372036854775808⟩ }

def noDelay : Kept := ⟨fun _ => true, fun _ key => key ≠ "reconnect_delay_ms"⟩

def nested : Disk := (Disk.empty.widened 0 "c").created 1 "d"

theorem placeable_empty : Disk.empty.Placeable "c/d" := by
  have hparents : Path.parents "c/d" = ["c"] := by decide +kernel
  have hdirectory : Disk.empty.target "c" = .ok (.named 0 "c" false) := by decide +kernel
  have hfree : Disk.empty.find? 0 "c" = .ok none := by decide +kernel
  have htarget : (Disk.empty.widened 0 "c").target "c/d" = .ok (.named 1 "d" false) := by
    decide +kernel
  have hnone : (Disk.empty.widened 0 "c").find? 1 "d" = .ok none := by decide +kernel
  have hmake : Disk.empty.makeDirectory "c" = .ok (Disk.empty.widened 0 "c") := by
    simp [Disk.makeDirectory, Disk.widened, hdirectory, hfree, bind, Except.bind, pure, Except.pure]
  have hopened : (Disk.empty.widened 0 "c").openOrCreate "c/d" = .ok (0, nested) := by
    simp [Disk.openOrCreate, htarget, hnone, bind, Except.bind, pure, Except.pure]
    exact ⟨rfl, rfl⟩
  refine ⟨_, 0, nested, ?_, hopened⟩
  simp [hparents, Disk.makeDirectories, Disk.ensureDirectory, hmake]

theorem contentAt_nested (c : FileContent) : (nested.setContent 0 c).contentAt "c/d" = .ok c := by
  have hopen : nested.open? "c/d" = .ok (.file 0) := by decide +kernel
  refine Disk.contentAt_eq_ok.2 ⟨0, (Disk.extends_setContent nested 0 c).open? hopen, ?_⟩
  exact Disk.content_setContent_self (by decide +kernel) c

theorem load_save_quoting : Disk.empty.Sound ∧ quoting.Writable ∧ ¬ vast.Writable ∧
    (∃ after, save .empty "c/d" quoting = (.ok (), after) ∧
      load after "c/d" = (.ok quoting, after) ∧
      ∃ e, (save after "c/d" vast).1 = .error e ∧
        (save after "c/d" vast).2.contentAt "c/d" = after.contentAt "c/d") ∧
    ∃ text, Toml.render? (noDelay.sections quoting.sections) = some text ∧
      let left := nested.setContent 0 (.ofByteArray text.toUTF8)
      load left "c/d" = (.ok (quoting.keeping noDelay), left) := by
  have hquoting : quoting.Writable := by decide
  have hvast : ¬ vast.Writable := by decide
  obtain ⟨hplace, hload, hkept⟩ := (load_save Disk.sound_empty "c/d" quoting).1 hquoting
  have hok := hplace.2 placeable_empty
  obtain ⟨text, -, hcontent, hwhole⟩ := hload hok
  have hafter := sound_save Disk.sound_empty "c/d" quoting
  obtain ⟨⟨e, he⟩, -, hsame⟩ := (load_save hafter "c/d" vast).2 hvast
  obtain ⟨part, hpart, hdefaults⟩ := hkept noDelay
  refine ⟨Disk.sound_empty, hquoting, hvast, ⟨_, Prod.ext hok rfl, hwhole, e, he, ?_⟩,
    part, hpart, ?_⟩
  · rw [hcontent]
    exact hsame "c/d" _ hcontent
  · exact hdefaults _ _ (contentAt_nested _) (FileContent.toByteArray_ofByteArray _)

end Settings

end ContentTree
