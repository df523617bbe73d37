import Mathlib.Data.Set.Function
import ContentTree.Proofs.Deletion

/-!
# An identifier stands for the bytes of a file

Whoever receives the messages of an insertion, and whatever the options and the files of the levels,
a file has one identifier. It tells the bytes of two files apart as far as the hash does.
-/

namespace ContentTree

namespace Source

/-- The plaintexts that are hashed for a file. -/
def payloads (s : Suite) (src : Source) : Set Bytes :=
  {x | ∃ level position, Place src.size level position ∧ src.payload s level position = x}

/-- A file is known by its leaves. -/
theorem eq_of_leaves {file file' : Bytes} (hlength : file'.length = file.length)
    (h : ∀ start, Place file.length 0 start → (ofFile file').leaf start = (ofFile file).leaf start) :
    file' = file := by
  refine List.ext_getElem? fun i => ?_
  rcases Nat.lt_or_ge i file.length with hlt | hge
  · -- The byte is in the leaf that starts at the last multiple of the capacity before it.
    have hdiv := Nat.div_add_mod i leafCapacity
    have hmod : i % leafCapacity < leafCapacity := Nat.mod_lt i (by decide)
    have hplace : Place file.length 0 (leafCapacity * (i / leafCapacity)) :=
      ⟨Nat.zero_le _, Dvd.intro _ rfl, .inl (by omega)⟩
    have hbyte : ∀ bytes : Bytes,
        ((ofFile bytes).leaf (leafCapacity * (i / leafCapacity)))[i % leafCapacity]? = bytes[i]? := by
      intro bytes
      rw [ofFile, List.getElem?_take_of_lt hmod, List.getElem?_drop, hdiv]
    rw [← hbyte file', ← hbyte file, h _ hplace]
  · rw [List.getElem?_eq_none hge, List.getElem?_eq_none (hlength ▸ hge)]

/-- Two files with one identifier are the same, unless payloads of theirs collide. -/
theorem identifier_injective {s : Suite} {file file' : Bytes} (hsize : file.length ≤ maxSize)
    (hsize' : file'.length ≤ maxSize)
    (hcollision : Set.InjOn s.hash ((ofFile file).payloads s ∪ (ofFile file').payloads s))
    (h : (ofFile file').identifier s = (ofFile file).identifier s) : file' = file := by
  have hlength : file'.length = file.length := by
    have hwords : UInt64.ofNat file'.length = UInt64.ofNat file.length :=
      congrArg FileIdentifier.length h
    rw [← UInt64.toNat_ofNat_of_lt' (Nat.lt_of_le_pred (by decide) hsize'), hwords,
      UInt64.toNat_ofNat_of_lt' (Nat.lt_of_le_pred (by decide) hsize)]
  have hsame : (ofFile file').size = (ofFile file).size := hlength
  have hkey : ((ofFile file').chk s (treeDepth file.length) 0).key =
      ((ofFile file).chk s (treeDepth file.length) 0).key := by
    have hchk : ((ofFile file').chk s (treeDepth file'.length) 0).key =
        ((ofFile file).chk s (treeDepth file.length) 0).key :=
      congrArg (fun f : FileIdentifier => f.chk.key) h
    rwa [hlength] at hchk
  refine eq_of_leaves hlength fun start hstart => ?_
  have hpayload := payload_eq_of_key_eq hsize hsame (place_root file.length)
    (fun below start hplace _ heq => hcollision (.inr ⟨below, start, hsame ▸ hplace, rfl⟩)
      (.inl ⟨below, start, hplace, rfl⟩) heq)
    hkey hstart (covers_root hstart)
  rwa [payload_zero (exact_ofFile file' start), payload_zero (exact_ofFile file start)] at hpayload

end Source

/-- The receiver takes every message, in whatever state it is. -/
def Sink.Accepts {σ : Type} (sink : Sink σ) : Prop := ∀ m x, (sink.submit m x).1 = .ok ()

namespace Files

variable {s : Suite} {d d' : Disk} {path path' : String} {c c' : FileContent}

/-- However the file at `path` is inserted or identified, this is its identifier. -/
structure Identifies (s : Suite) (d : Disk) (path : String) (f : FileIdentifier) : Prop where
  insert : ∀ {σ : Type} (opts : InsertOptions) (sink : Sink σ) (x : σ), sink.Accepts →
    (Files.insert s d path opts sink x).1 = .ok f
  identify : ∀ opts : InsertOptions, Files.identify s d path opts = .ok f

theorem accepted_of_accepts {σ : Type} {env : Upload.Env σ} (h : env.sink.Accepts) (x : σ)
    (ms : List ClientMessage) : Upload.Accepted env x ms := by
  induction ms generalizing x with
  | nil => trivial
  | cons m ms ih => exact ⟨.inl (h m x), ih _⟩

theorem identifies (hc : d.contentAt path = .ok c) (hsize : c.size ≤ Handle.offsetLimit) :
    Identifies s d path ((Source.ofFile c.toBytes).identifier s) := by
  have hmax : c.size ≤ maxSize := hsize.trans (by decide)
  have hinsert : ∀ {σ : Type} (opts : InsertOptions) (sink : Sink σ) (x : σ), sink.Accepts →
      (Files.insert s d path opts sink x).1 = .ok ((Source.ofFile c.toBytes).identifier s) := by
    intro σ opts sink x haccepts
    obtain ⟨storage, object, rfl, hobject, -, hopen⟩ := openWalk_eq s opts hc
    obtain ⟨f, hrun⟩ := @insert_of_accepted σ s d path opts storage _ hmax hopen
      (fun start hstart => hasLeaf_of_content hobject hsize hstart) sink x
      (accepted_of_accepts haccepts x _)
    obtain ⟨rfl, -⟩ := insert_eq_ok hc hmax hrun
    rw [hrun]
  exact ⟨hinsert, fun opts => hinsert opts Sink.discard () fun _ _ => rfl⟩

/-- Two files have identifiers, and have the same one just if they are the same bytes. A file is no
longer than offsets reach. -/
theorem identifier_eq_iff (hc : d.contentAt path = .ok c) (hc' : d'.contentAt path' = .ok c')
    (hsize : c.size ≤ Handle.offsetLimit) (hsize' : c'.size ≤ Handle.offsetLimit)
    (hcollision : Set.InjOn s.hash
      ((Source.ofFile c.toBytes).payloads s ∪ (Source.ofFile c'.toBytes).payloads s)) :
    ∃ f f', Identifies s d path f ∧ Identifies s d' path' f' ∧ (f = f' ↔ c.toBytes = c'.toBytes) := by
  have hlimit : Handle.offsetLimit ≤ maxSize := by decide
  refine ⟨_, _, identifies hc hsize, identifies hc' hsize', fun heq => ?_, fun heq => by rw [heq]⟩
  refine Source.identifier_injective ?_ ?_ (Set.union_comm _ _ ▸ hcollision) heq
  · rw [FileContent.length_toBytes]
    exact hsize'.trans hlimit
  · rw [FileContent.length_toBytes]
    exact hsize.trans hlimit

/-- The files differ in their last bytes. -/
theorem identifiers_of_strips :
    ∃ f f', Identifies stripSuite (lone (strip 9)) "f" f ∧
      Identifies stripSuite (lone (strip 10)) "f" f' ∧ f ≠ f' := by
  have hpayloads : ∀ last, last = 9 ∨ last = 10 →
      (Source.ofFile (strip last).toBytes).payloads stripSuite ⊆ {bytes | bytes ∈ stripPayloads} := by
    rintro last hlast bytes ⟨level, position, hplace, rfl⟩
    have hsize : ∀ c : FileContent, (Source.ofFile c.toBytes).size = c.size :=
      FileContent.length_toBytes
    rw [hsize] at hplace
    rw [toBytes_strip]
    exact payload_strip hlast hplace
  have hcollision : Set.InjOn stripSuite.hash
      ((Source.ofFile (strip 9).toBytes).payloads stripSuite ∪
        (Source.ofFile (strip 10).toBytes).payloads stripSuite) := by
    intro x _ y hy heq
    have hmem := Set.union_subset (hpayloads 9 (.inl rfl)) (hpayloads 10 (.inr rfl)) hy
    exact Suite.separating_hash_inj (by decide) hmem heq
  obtain ⟨f, f', hf, hf', hiff⟩ := identifier_eq_iff (contentAt_lone (strip 9))
    (contentAt_lone (strip 10)) (by decide) (by decide) hcollision
  refine ⟨f, f', hf, hf', fun heq => ?_⟩
  have hsame := hiff.1 heq
  rw [toBytes_strip, toBytes_strip] at hsame
  exact absurd (List.append_cancel_left hsame) (by decide)

end Files

end ContentTree
