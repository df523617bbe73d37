import ContentTree.Proofs.Toml.Document
import ContentTree.Settings.Text

/-!
# Settings are read back from their text

The text of settings exists as long as their numbers fit the signed range of 64 bits. Any of its
keys may be left out, and whole sections too: what is read then has the defaults in their places.
-/

namespace ContentTree

open Toml (Value Section)

/-! ### Keys that are left out -/

/-- The keys that stay in a text, in the sections that stay in it. -/
structure Kept where
  header : String → Bool
  key : String → String → Bool

namespace Kept

def all : Kept := ⟨fun _ => true, fun _ _ => true⟩

/-- A section with the keys that stay. -/
def trim (k : Kept) (s : Section) : Section :=
  { s with bindings := s.bindings.filter fun b => k.key s.name b.1 }

def sections (k : Kept) (ss : List Section) : List Section :=
  (ss.filter fun s => k.header s.name).map k.trim

/-- The value of a key, or what stands in for it if the key is left out. -/
def choose {α : Type} (k : Kept) (header key : String) (value fallback : α) : α :=
  if k.header header ∧ k.key header key then value else fallback

/-- The same keys, once their sections stay. -/
def inside (k : Kept) : Kept := { k with header := fun _ => true }

variable {k : Kept} {ss : List Section} {s : Section}

theorem sections_all (ss : List Section) : all.sections ss = ss := by
  have htrim : all.trim = id := by
    funext s
    simp [trim, all]
  rw [sections, htrim, List.map_id]
  exact List.filter_eq_self.2 fun _ _ => rfl

theorem mem_trim {b : String × Value} (h : b ∈ (k.trim s).bindings) : b ∈ s.bindings :=
  List.mem_of_mem_filter h

theorem mem_sections (h : s ∈ k.sections ss) : ∃ whole ∈ ss, k.trim whole = s := by
  obtain ⟨whole, hwhole, hs⟩ := List.mem_map.1 h
  exact ⟨whole, List.mem_of_mem_filter hwhole, hs⟩

theorem plain_sections (h : Toml.Plain ss) (k : Kept) : Toml.Plain (k.sections ss) where
  sections := by
    intro s hs
    obtain ⟨whole, hwhole, rfl⟩ := mem_sections hs
    obtain ⟨hname, hkeys, hnodup⟩ := h.sections whole hwhole
    exact ⟨hname, fun b hb => hkeys b (mem_trim hb),
      hnodup.sublist (List.filter_sublist.map Prod.fst)⟩
  nodup := by
    have hnames : (k.sections ss).map Section.name =
        (ss.filter fun s => k.header s.name).map Section.name := by
      rw [sections, List.map_map]
      rfl
    rw [hnames]
    exact h.nodup.sublist (List.filter_sublist.map Section.name)

theorem exists_render?_sections (h : ∃ text, Toml.render? ss = some text) (k : Kept) :
    ∃ text, Toml.render? (k.sections ss) = some text := by
  rw [Toml.exists_render?_iff] at h ⊢
  intro s hs b hb
  obtain ⟨whole, hwhole, rfl⟩ := mem_sections hs
  exact h whole hwhole b (mem_trim hb)

end Kept

/-! ### Fields -/

theorem lookup_filter {α : Type} (keep : String → Bool) (es : List (String × α)) (key : String) :
    (es.filter fun e => keep e.1).lookup key = if keep key then es.lookup key else none := by
  induction es with
  | nil => simp
  | cons e es ih =>
    obtain ⟨name, v⟩ := e
    by_cases hkey : key = name
    · subst hkey
      cases hkeep : keep key with
      | true => simp [hkeep]
      | false => simp [hkeep, ih]
    · have hbeq : (key == name) = false := by simpa using hkey
      cases hkeep : keep name <;> simp [hkeep, hbeq, ih, List.lookup_cons]

namespace Fields

/-- The fields of a table by name. -/
def named (es : List (String × Value)) : Fields := fun name _ => es.lookup name

/-- A field that is left out has its default. -/
theorem read_kept {α : Type} {kind : Value → Option α} {es : List (String × Value)} {name : String}
    {v : Value} {x : α} (hlookup : es.lookup name = some v) (hkind : kind v = some x)
    (keep : String → Bool) (i : Nat) (fallback : α) :
    (named (es.filter fun e => keep e.1)).read kind name i fallback =
      some (if keep name then x else fallback) := by
  have hfield : named (es.filter fun e => keep e.1) name i =
      if keep name then some v else none := by
    rw [named, lookup_filter, hlookup]
  rw [read, hfield]
  cases keep name with
  | true => exact hkind
  | false => rfl

theorem read_written {α : Type} {kind : Value → Option α} {written : α → Value}
    (hkind : ∀ x, kind (written x) = some x) (keep : String → Bool) {es : List (String × Value)}
    (name : String) (x : α) (hlookup : es.lookup name = some (written x)) (i : Nat) (fallback : α) :
    (named (es.filter fun e => keep e.1)).read kind name i fallback =
      some (if keep name then x else fallback) :=
  read_kept hlookup (hkind x) keep i fallback

end Fields

namespace Settings

theorem string?_string (x : String) : string? (.string x) = some x := rfl

theorem boolean?_boolean (b : Bool) : boolean? (.boolean b) = some b := rfl

theorem natural?_of_lt {bits n : Nat} (h : n < Nat.pow 2 bits) :
    natural? bits (.integer n) = some n := by
  rw [natural?, if_pos ⟨Int.natCast_nonneg n, Int.ofNat_lt.2 h⟩, Int.toNat_natCast]

theorem uint32?_toNat (n : UInt32) : uint32? (.integer n.toNat) = some n := by
  rw [uint32?, natural?_of_lt n.toNat_lt, Option.map_some, UInt32.ofNat_toNat]

theorem uint64?_toNat (n : UInt64) : uint64? (.integer n.toNat) = some n := by
  rw [uint64?, natural?_of_lt n.toNat_lt, Option.map_some, UInt64.ofNat_toNat]

theorem int32?_toInt (n : Int32) : int32? (.integer n.toInt) = some n := by
  rw [int32?, if_pos ⟨n.minValue_le_toInt, n.toInt_le⟩, Int32.ofInt_toInt]

variable {s : Settings} {keep : String → Bool}

/-- The settings with the defaults of the keys that are left out. -/
def keeping (k : Kept) (s : Settings) : Settings where
  daemon :=
    let d := DaemonSettings.default
    { address := k.choose "daemon" "address" s.daemon.address d.address
      reconnectDelayMs :=
        k.choose "daemon" "reconnect_delay_ms" s.daemon.reconnectDelayMs d.reconnectDelayMs }
  content :=
    let d := ContentSettings.default
    { priority := k.choose "content" "priority" s.content.priority d.priority
      index := k.choose "content" "index" s.content.index d.index }
  scheduler :=
    let t := s.scheduler
    let d := SchedulerSettings.default
    let pick {α : Type} (key : String) (value fallback : α) :=
      k.choose "scheduler" key value fallback
    { ttlDecrementMs := pick "ttl_decrement_ms" t.ttlDecrementMs d.ttlDecrementMs
      maxTtlFactor := pick "max_ttl_factor" t.maxTtlFactor d.maxTtlFactor
      initialTtlMs := pick "initial_ttl_ms" t.initialTtlMs d.initialTtlMs
      initialCongestionWindow :=
        pick "initial_congestion_window" t.initialCongestionWindow d.initialCongestionWindow
      initialSsthresh := pick "initial_ssthresh" t.initialSsthresh d.initialSsthresh
      maxTries := pick "max_tries" t.maxTries d.maxTries
      ttlWeight := pick "ttl_weight" t.ttlWeight d.ttlWeight
      ttlWeightFast := pick "ttl_weight_fast" t.ttlWeightFast d.ttlWeightFast
      minSleepMs := pick "min_sleep_ms" t.minSleepMs d.minSleepMs
      maxSleepMs := pick "max_sleep_ms" t.maxSleepMs d.maxSleepMs }
  anonymity :=
    let d := AnonymitySettings.default
    { sendPolicy := k.choose "anonymity" "send_policy" s.anonymity.sendPolicy d.sendPolicy
      receivePolicy :=
        k.choose "anonymity" "receive_policy" s.anonymity.receivePolicy d.receivePolicy }

theorem keeping_all (s : Settings) : s.keeping .all = s := rfl

def bindings (s : Settings) (name : String) : List (String × Value) :=
  ((s.sections.find? fun x => x.name = name).map Section.bindings).getD []

/-- The bindings that stay in the section of this name. -/
def keptFields (k : Kept) (s : Settings) (name : String) : Fields :=
  .named ((s.bindings name).filter fun b => k.key name b.1)

variable {k : Kept}

theorem daemonOf_keptFields :
    daemonOf (s.keptFields k "daemon") = some (s.keeping k.inside).daemon := by
  have hstring := @Fields.read_written _ _ _ string?_string (k.key "daemon") (s.bindings "daemon")
  have h64 := @Fields.read_written _ _ _ uint64?_toNat (k.key "daemon") (s.bindings "daemon")
  simp only [daemonOf, keptFields]
  rw [hstring "address" s.daemon.address rfl,
    h64 "reconnect_delay_ms" s.daemon.reconnectDelayMs rfl]
  simp [keeping, Kept.choose, Kept.inside]

theorem contentOf_keptFields :
    contentOf (s.keptFields k "content") = some (s.keeping k.inside).content := by
  have h32 := @Fields.read_written _ _ _ uint32?_toNat (k.key "content") (s.bindings "content")
  have hboolean :=
    @Fields.read_written _ _ _ boolean?_boolean (k.key "content") (s.bindings "content")
  simp only [contentOf, keptFields]
  rw [h32 "priority" s.content.priority rfl, hboolean "index" s.content.index rfl]
  simp [keeping, Kept.choose, Kept.inside]

theorem schedulerOf_keptFields :
    schedulerOf (s.keptFields k "scheduler") = some (s.keeping k.inside).scheduler := by
  have h32 :=
    @Fields.read_written _ _ _ uint32?_toNat (k.key "scheduler") (s.bindings "scheduler")
  have h64 :=
    @Fields.read_written _ _ _ uint64?_toNat (k.key "scheduler") (s.bindings "scheduler")
  simp only [schedulerOf, keptFields]
  rw [h64 "ttl_decrement_ms" s.scheduler.ttlDecrementMs rfl,
    h64 "max_ttl_factor" s.scheduler.maxTtlFactor rfl,
    h64 "initial_ttl_ms" s.scheduler.initialTtlMs rfl,
    h32 "initial_congestion_window" s.scheduler.initialCongestionWindow rfl,
    h32 "initial_ssthresh" s.scheduler.initialSsthresh rfl,
    h32 "max_tries" s.scheduler.maxTries rfl,
    h64 "ttl_weight" s.scheduler.ttlWeight rfl,
    h64 "ttl_weight_fast" s.scheduler.ttlWeightFast rfl,
    h64 "min_sleep_ms" s.scheduler.minSleepMs rfl,
    h64 "max_sleep_ms" s.scheduler.maxSleepMs rfl]
  simp [keeping, Kept.choose, Kept.inside]

theorem anonymityOf_keptFields :
    anonymityOf (s.keptFields k "anonymity") = some (s.keeping k.inside).anonymity := by
  have hsigned :=
    @Fields.read_written _ _ _ int32?_toInt (k.key "anonymity") (s.bindings "anonymity")
  simp only [anonymityOf, keptFields]
  rw [hsigned "send_policy" s.anonymity.sendPolicy rfl,
    hsigned "receive_policy" s.anonymity.receivePolicy rfl]
  simp [keeping, Kept.choose, Kept.inside]

/-- A section that is left out has all its defaults. -/
theorem read_section {α : Type} {reader : Fields → Option α} {name : String} {x : α}
    (hsection : (s.sections.map fun part => (k.trim part).entry).lookup name =
      some (.table (.mk .header ((s.bindings name).filter fun b => k.key name b.1))))
    (hreader : reader (s.keptFields k name) = some x) (i : Nat) (fallback : α) :
    (Fields.named ((k.sections s.sections).map Section.entry)).read
        (fun v => (Fields.ofValue? v).bind reader) name i fallback =
      some (if k.header name then x else fallback) := by
  have hentries : (k.sections s.sections).map Section.entry =
      (s.sections.map fun part => (k.trim part).entry).filter fun e => k.header e.1 := by
    rw [Kept.sections, List.map_map, List.filter_map]
    rfl
  rw [hentries]
  exact Fields.read_kept hsection hreader k.header i fallback

theorem ofTable?_kept (k : Kept) (s : Settings) :
    ofTable? (.mk .header ((k.sections s.sections).map Section.entry)) = some (s.keeping k) := by
  have hfields : (fun (name : String) (_ : Nat) =>
      (Toml.Table.mk .header ((k.sections s.sections).map Section.entry)).get? name) =
        Fields.named ((k.sections s.sections).map Section.entry) := rfl
  have hdaemon : (if k.header "daemon" then (s.keeping k.inside).daemon else .default) =
      (s.keeping k).daemon := by
    cases h : k.header "daemon" <;> simp [keeping, Kept.choose, Kept.inside, h]
  have hcontent : (if k.header "content" then (s.keeping k.inside).content else .default) =
      (s.keeping k).content := by
    cases h : k.header "content" <;> simp [keeping, Kept.choose, Kept.inside, h]
  have hscheduler : (if k.header "scheduler" then (s.keeping k.inside).scheduler else .default) =
      (s.keeping k).scheduler := by
    cases h : k.header "scheduler" <;> simp [keeping, Kept.choose, Kept.inside, h]
  have hanonymity : (if k.header "anonymity" then (s.keeping k.inside).anonymity else .default) =
      (s.keeping k).anonymity := by
    cases h : k.header "anonymity" <;> simp [keeping, Kept.choose, Kept.inside, h]
  simp only [ofTable?, hfields]
  rw [read_section (k := k) rfl daemonOf_keptFields, read_section (k := k) rfl contentOf_keptFields,
    read_section (k := k) rfl schedulerOf_keptFields,
    read_section (k := k) rfl anonymityOf_keptFields, hdaemon, hcontent, hscheduler, hanonymity]
  rfl

/-! ### Texts -/

/-- The keys of each section, which are the same in all settings. -/
def layout : List (String × List String) :=
  sections .default |>.map fun part => (part.name, part.bindings.map Prod.fst)

theorem plain_sections (s : Settings) : Toml.Plain s.sections where
  sections := by
    have hlayout : ∀ e ∈ layout, Toml.Bare e.1 ∧ (∀ key ∈ e.2, Toml.Bare key) ∧ e.2.Nodup := by
      decide
    intro part hpart
    have hmem : (part.name, part.bindings.map Prod.fst) ∈ layout :=
      List.mem_map_of_mem (f := fun part => (part.name, part.bindings.map Prod.fst)) hpart
    obtain ⟨hname, hkeys, hnodup⟩ := hlayout _ hmem
    exact ⟨hname, fun b hb => hkeys b.1 (List.mem_map_of_mem hb), hnodup⟩
  nodup := by
    have hnames : (layout.map Prod.fst).Nodup := by
      decide
    exact hnames

def words (s : Settings) : List UInt64 :=
  [s.daemon.reconnectDelayMs, s.scheduler.ttlDecrementMs, s.scheduler.maxTtlFactor,
    s.scheduler.initialTtlMs, s.scheduler.ttlWeight, s.scheduler.ttlWeightFast,
    s.scheduler.minSleepMs, s.scheduler.maxSleepMs]

/-- No number of 64 bits goes beyond the signed range. -/
def Writable (s : Settings) : Prop := ∀ n ∈ s.words, n.toNat ≤ Nat.pow 2 63 - 1

instance : Decidable s.Writable := List.decidableBAll _ s.words

theorem inRange_iff {i : Int} :
    Toml.inRange i = true ↔ -9223372036854775808 ≤ i ∧ i ≤ 9223372036854775807 := by
  have hlow : Int64.minValue.toInt = -9223372036854775808 := by decide
  have hhigh : Int64.maxValue.toInt = 9223372036854775807 := by decide
  rw [Toml.inRange, hlow, hhigh, decide_eq_true_eq]

theorem exists_render?_integer {i : Int} :
    (∃ text, (Value.integer i).render? = some text) ↔ Toml.inRange i = true := by
  by_cases h : Toml.inRange i = true <;> simp [Value.render?, h]

theorem exists_render?_uint64 {n : UInt64} :
    (∃ text, (Value.integer n.toNat).render? = some text) ↔ n.toNat ≤ Nat.pow 2 63 - 1 := by
  have hlimit : Nat.pow 2 63 = 9223372036854775808 := by decide
  rw [exists_render?_integer, inRange_iff]
  omega

theorem exists_render?_uint32 (n : UInt32) :
    ∃ text, (Value.integer n.toNat).render? = some text := by
  have hn := n.toNat_lt
  rw [exists_render?_integer, inRange_iff]
  omega

theorem exists_render?_int32 (n : Int32) : ∃ text, (Value.integer n.toInt).render? = some text := by
  have hmin : Int32.minValue.toInt = -2147483648 := by decide
  have hlow := n.minValue_le_toInt
  have hhigh := n.toInt_lt
  rw [exists_render?_integer, inRange_iff]
  omega

/-- The text exists just when the numbers of 64 bits fit. -/
theorem exists_render?_iff : (∃ text, s.render? = some text) ↔ s.Writable := by
  have hstring : ∀ x, ∃ text, (Value.string x).render? = some text := fun _ => ⟨_, rfl⟩
  have hboolean : ∀ b, ∃ text, (Value.boolean b).render? = some text := fun _ => ⟨_, rfl⟩
  rw [render?, Toml.exists_render?_iff]
  simp only [sections, List.forall_mem_cons, List.not_mem_nil, IsEmpty.forall_iff, implies_true,
    hstring, hboolean, exists_render?_uint64, exists_render?_uint32, exists_render?_int32, Writable,
    words, true_and, and_true]

/-- The text of the keys that stay gives the settings back, with defaults for the others. -/
theorem exists_render?_kept (h : s.Writable) (k : Kept) :
    ∃ text, Toml.render? (k.sections s.sections) = some text ∧
      parse? text = some (s.keeping k) := by
  obtain ⟨text, htext⟩ := Kept.exists_render?_sections (exists_render?_iff.2 h) k
  refine ⟨text, htext, ?_⟩
  rw [parse?, (Kept.plain_sections s.plain_sections k).parse? htext]
  exact ofTable?_kept k s

end Settings

end ContentTree
