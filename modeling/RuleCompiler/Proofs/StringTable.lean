import Mathlib.Data.Finset.Card
import Mathlib.Data.Finset.Dedup
import Mathlib.Data.Finset.Insert
import Mathlib.Data.List.Forall2
import Mathlib.Data.List.Nodup
import RuleCompiler.StringTable

/-! # Names and texts correspond

Over a whole run of a string table, equal texts get equal names, different texts different ones,
and every name keeps giving its text. In each shard the positions of the texts and the texts by
position are inverse to each other, and both only grow. -/

namespace RuleCompiler

/-! ### The parts of a name -/

namespace Name

variable {s p : Nat}

theorem toNat_mk' (hs : s < shardCount) (hp : p ≤ maxPosition) :
    (mk' s p).raw.toNat = (maxPosition + 1) * s + p := by
  have htop : maxPosition + 1 = 2 ^ 28 := rfl
  rw [htop]
  simp only [shardCount, maxPosition] at hs hp
  have hp' : p < 2 ^ 28 := by omega
  rw [Nat.two_pow_add_eq_or_of_lt hp', mk', BitVec.toNat_or, BitVec.toNat_shiftLeft,
    BitVec.toNat_ofNat, BitVec.toNat_ofNat, Nat.shiftLeft_eq, Nat.mod_eq_of_lt (by omega : s < _),
    Nat.mod_eq_of_lt (by omega), Nat.mod_eq_of_lt (by omega : p < _), Nat.mul_comm]

theorem shard_mk' (hs : s < shardCount) (hp : p ≤ maxPosition) : (mk' s p).shard = s := by
  rw [shard, BitVec.toNat_ushiftRight, toNat_mk' hs hp, Nat.shiftRight_eq_div_pow]
  simp only [maxPosition] at hp ⊢
  omega

theorem position_mk' (hs : s < shardCount) (hp : p ≤ maxPosition) : (mk' s p).position = p := by
  have hmask : (BitVec.ofNat 32 maxPosition).toNat = 2 ^ 28 - 1 := rfl
  rw [position, BitVec.toNat_and, toNat_mk' hs hp, hmask, Nat.and_two_pow_sub_one_eq_mod]
  simp only [maxPosition] at hp ⊢
  omega

end Name

namespace StringTable

/-! ### What a table holds -/

/-- The table `t` holds the texts `known`, each in its shard and at one position there. -/
structure Holds (t : StringTable) (known : Finset String) : Prop where
  length_shards : t.shards.length = Name.shardCount
  lookup_iff : ∀ i text p,
    (t.shardAt i).ids.lookup text = some p ↔ (t.shardAt i).texts[p]? = some text
  mem_iff : ∀ i text, text ∈ (t.shardAt i).texts ↔ text ∈ known ∧ t.shardOf text = i
  length_le : ∀ i, (t.shardAt i).texts.length ≤ Name.maxPosition + 1
  entries_eq : t.entries = known.card
  first : (t.shardAt 0).texts[0]? = some ""

/-- `t'` has what `t` has, where it was, and perhaps more after it. -/
structure GrowsTo (t t' : StringTable) : Prop where
  hash_eq : t'.hash = t.hash
  texts : ∀ i, (t.shardAt i).texts <+: (t'.shardAt i).texts

theorem GrowsTo.refl (t : StringTable) : t.GrowsTo t := ⟨rfl, fun _ => List.prefix_rfl⟩

theorem GrowsTo.trans {t t' t'' : StringTable} (h : t.GrowsTo t') (h' : t'.GrowsTo t'') :
    t.GrowsTo t'' :=
  ⟨h'.hash_eq.trans h.hash_eq, fun i => (h.texts i).trans (h'.texts i)⟩

/-- `n` points at `text` in the shard of `text`. -/
def Names (t : StringTable) (text : String) (n : Name) : Prop :=
  ∃ p ≤ Name.maxPosition, n = .mk' (t.shardOf text) p ∧
    (t.shardAt (t.shardOf text)).texts[p]? = some text

variable {t t' : StringTable} {known : Finset String} {text text' : String} {n n' : Name}

theorem shardOf_lt (t : StringTable) (text : String) : t.shardOf text < Name.shardCount := by
  rw [shardOf]
  split
  · decide
  · exact Nat.mod_lt _ (by decide)

@[simp] theorem shardOf_empty (t : StringTable) : t.shardOf "" = 0 := rfl

theorem Names.lookup? (h : t.Names text n) : t.lookup? n = some text := by
  obtain ⟨p, hp, rfl, ht⟩ := h
  rw [StringTable.lookup?, Name.shard_mk' (shardOf_lt t text) hp,
    Name.position_mk' (shardOf_lt t text) hp, ht]

theorem Names.mono (h : t.Names text n) (hg : t.GrowsTo t') : t'.Names text n := by
  obtain ⟨p, hp, rfl, ht⟩ := h
  have hs : t'.shardOf text = t.shardOf text := by rw [shardOf, shardOf, hg.hash_eq]
  refine ⟨p, hp, by rw [hs], ?_⟩
  obtain ⟨more, hmore⟩ := hg.texts (t.shardOf text)
  rw [hs, ← hmore]
  exact (List.getElem?_append_left (List.getElem?_eq_some_iff.mp ht).1).trans ht

theorem Names.unique (h : t.Holds known) (hn : t.Names text n) (hn' : t.Names text n') :
    n = n' := by
  obtain ⟨p, -, rfl, ht⟩ := hn
  obtain ⟨p', -, rfl, ht'⟩ := hn'
  rw [← h.lookup_iff] at ht ht'
  rw [Option.some.inj (ht.symm.trans ht')]

theorem Names.eq_iff (h : t.Holds known) (hn : t.Names text n) (hn' : t.Names text' n') :
    n = n' ↔ text = text' := by
  constructor
  · rintro rfl
    exact Option.some.inj (hn.lookup?.symm.trans hn'.lookup?)
  · rintro rfl
    exact hn.unique h hn'

theorem Holds.names_empty (h : t.Holds known) : t.Names "" .empty :=
  ⟨0, Nat.zero_le _, by rw [shardOf_empty]; rfl, h.first⟩

/-! ### One more text -/

theorem shardAt_set {shards : List Shard} {j : Nat} (hj : j < shards.length) (s : Shard)
    (entries i : Nat) :
    shardAt ⟨t.hash, shards.set j s, entries⟩ i = if i = j then s else shards[i]?.getD {} := by
  rw [shardAt, List.getElem?_set]
  by_cases hi : j = i
  · subst hi; simp [hj]
  · simp [hi, Ne.symm hi]

theorem Shard.lookup_add (s : Shard) (text a : String) :
    (s.add text).ids.lookup a = if a = text then some s.texts.length else s.ids.lookup a := by
  rw [Shard.add, List.lookup_cons]
  by_cases h : a = text
  · simp [h]
  · simp [h, beq_false_of_ne h]

/-- Adding a new text to a shard keeps the positions and the texts inverse to each other. -/
theorem Shard.lookup_add_iff {s : Shard}
    (h : ∀ a p, s.ids.lookup a = some p ↔ s.texts[p]? = some a) (hnew : text ∉ s.texts)
    (a : String) (p : Nat) :
    (s.add text).ids.lookup a = some p ↔ (s.add text).texts[p]? = some a := by
  have hold : s.texts[p]? ≠ some text := fun hp => hnew (List.mem_of_getElem? hp)
  rw [Shard.lookup_add, Shard.add]
  by_cases ha : a = text
  · grind
  · rw [if_neg ha, h]
    grind

/-- The table with `text`, which is new to it, at the end of its shard. -/
def withText (t : StringTable) (text : String) : StringTable :=
  let number := t.shardOf text
  ⟨t.hash, t.shards.set number ((t.shardAt number).add text), t.entries + 1⟩

theorem intern_of_mem (h : t.Holds known) (hmem : text ∈ known) :
    ∃ n, t.intern text = .ok (n, t) ∧ t.Names text n := by
  obtain ⟨p, hp⟩ := List.mem_iff_getElem?.mp ((h.mem_iff _ _).mpr ⟨hmem, rfl⟩)
  have hle : p ≤ Name.maxPosition := by
    have := h.length_le (t.shardOf text)
    have := (List.getElem?_eq_some_iff.mp hp).1
    omega
  refine ⟨.mk' (t.shardOf text) p, ?_, p, hle, rfl, hp⟩
  rw [intern]
  simp only [(h.lookup_iff _ _ _).mpr hp]

theorem holds_withText (h : t.Holds known) (hnew : text ∉ known)
    (hroom : (t.shardAt (t.shardOf text)).texts.length ≤ Name.maxPosition) :
    (t.withText text).Holds (insert text known) := by
  have hnew' : text ∉ (t.shardAt (t.shardOf text)).texts :=
    fun hm => hnew ((h.mem_iff _ _).mp hm).1
  have hat : ∀ i, (t.withText text).shardAt i =
      if i = t.shardOf text then (t.shardAt i).add text else t.shardAt i := by
    intro i
    rw [withText, shardAt_set (h.length_shards ▸ shardOf_lt t text)]
    split
    case isTrue hi => rw [hi]
    case isFalse => rfl
  constructor
  case length_shards => simpa [withText] using h.length_shards
  case lookup_iff =>
    intro i a p
    rw [hat]
    split
    case isTrue hi => subst hi; exact Shard.lookup_add_iff (h.lookup_iff _) hnew' a p
    case isFalse => exact h.lookup_iff i a p
  case mem_iff =>
    intro i a
    rw [hat]
    have hs : (t.withText text).shardOf a = t.shardOf a := rfl
    split
    case isTrue hi =>
      subst hi
      have := h.mem_iff (t.shardOf text) a
      grind [Shard.add]
    case isFalse hi =>
      have := h.mem_iff i a
      grind
  case length_le =>
    intro i
    rw [hat]
    split
    case isTrue hi => subst hi; simpa [Shard.add] using hroom
    case isFalse => exact h.length_le i
  case entries_eq => rw [Finset.card_insert_of_notMem hnew, ← h.entries_eq, withText]
  case first =>
    rw [hat]
    split
    case isTrue =>
      exact (List.getElem?_append_left (List.getElem?_eq_some_iff.mp h.first).1).trans h.first
    case isFalse => exact h.first

theorem growsTo_withText (h : t.Holds known) : t.GrowsTo (t.withText text) := by
  refine ⟨rfl, fun i => ?_⟩
  rw [withText, shardAt_set (h.length_shards ▸ shardOf_lt t text)]
  split
  case isTrue hi => rw [hi]; exact List.prefix_append ..
  case isFalse => exact List.prefix_rfl

theorem intern_of_not_mem (h : t.Holds known) (hnew : text ∉ known)
    (hroom : (t.shardAt (t.shardOf text)).texts.length ≤ Name.maxPosition) :
    ∃ n, t.intern text = .ok (n, t.withText text) ∧ (t.withText text).Names text n := by
  have hnone : (t.shardAt (t.shardOf text)).ids.lookup text = none := by
    refine Option.eq_none_iff_forall_ne_some.mpr fun p hp => hnew ?_
    exact ((h.mem_iff _ _).mp (List.mem_of_getElem? ((h.lookup_iff _ _ _).mp hp))).1
  refine ⟨.mk' (t.shardOf text) _, ?_, _, hroom, rfl, ?_⟩
  · rw [intern]
    simp only [hnone, Shard.insertIfAbsent, hroom, if_true]
    simp [bind, Except.bind, pure, Except.pure, Shard.add, withText]
  · rw [show (t.withText text).shardOf text = t.shardOf text from rfl, withText,
      shardAt_set (h.length_shards ▸ shardOf_lt t text), if_pos rfl]
    simp [Shard.add]

/-! ### A whole run -/

/-- The texts of a shard, counted. -/
theorem length_texts (h : t.Holds known) (i : Nat) :
    (t.shardAt i).texts.length = (known.filter (t.shardOf · = i)).card := by
  have hnodup : (t.shardAt i).texts.Nodup := by
    refine List.nodup_iff_injective_get.mpr fun p q hpq => Fin.ext ?_
    have hp : (t.shardAt i).texts[p.1]? = some ((t.shardAt i).texts.get p) := by simp
    have hq : (t.shardAt i).texts[q.1]? = some ((t.shardAt i).texts.get p) := by rw [hpq]; simp
    rw [← h.lookup_iff] at hp hq
    exact Option.some.inj (hp.symm.trans hq)
  rw [← List.toFinset_card_of_nodup hnodup]
  congr 1
  ext text
  simp [h.mem_iff]

/-- No shard gets more of the texts than it has positions for. -/
def HasRoom (t : StringTable) (texts : Finset String) : Prop :=
  ∀ i, (texts.filter (t.shardOf · = i)).card ≤ Name.maxPosition + 1

theorem exists_intern (h : t.Holds known) (hroom : t.HasRoom (insert text known)) :
    ∃ n t', t.intern text = .ok (n, t') ∧ t'.Holds (insert text known) ∧ t.GrowsTo t' ∧
      t'.Names text n := by
  by_cases hmem : text ∈ known
  · obtain ⟨n, hn, hnames⟩ := intern_of_mem h hmem
    exact ⟨n, t, hn, by rwa [Finset.insert_eq_of_mem hmem], .refl t, hnames⟩
  · have hlt : (t.shardAt (t.shardOf text)).texts.length ≤ Name.maxPosition := by
      have := hroom (t.shardOf text)
      rw [Finset.filter_insert, if_pos rfl, Finset.card_insert_of_notMem (by simp [hmem]),
        ← length_texts h] at this
      omega
    obtain ⟨n, hn, hnames⟩ := intern_of_not_mem h hmem hlt
    exact ⟨n, _, hn, holds_withText h hmem hlt, growsTo_withText h, hnames⟩

/-- The names of `texts`, each interned after those before it, and the table with all of them. -/
def internAll (t : StringTable) : List String → Except InternError (List Name × StringTable)
  | [] => .ok ([], t)
  | text :: texts => do
    let (name, t) ← t.intern text
    let (names, t) ← t.internAll texts
    return (name :: names, t)

theorem exists_internAll (texts : List String) (h : t.Holds known)
    (hroom : t.HasRoom (known ∪ texts.toFinset)) :
    ∃ names t', t.internAll texts = .ok (names, t') ∧ t'.Holds (known ∪ texts.toFinset) ∧
      t.GrowsTo t' ∧ List.Forall₂ t'.Names texts names := by
  induction texts generalizing t known with
  | nil => exact ⟨[], t, rfl, by simpa using h, .refl t, .nil⟩
  | cons text texts ih =>
    have hsplit : known ∪ (text :: texts).toFinset = insert text known ∪ texts.toFinset := by
      ext a
      simp
    rw [hsplit] at hroom ⊢
    obtain ⟨n, t₁, hn, hholds, hgrows, hnames⟩ := exists_intern h fun i =>
      (Finset.card_le_card (Finset.filter_subset_filter _ Finset.subset_union_left)).trans (hroom i)
    have hroom₁ : t₁.HasRoom (insert text known ∪ texts.toFinset) := by
      intro i
      have hs : t₁.shardOf = t.shardOf := by funext a; rw [shardOf, shardOf, hgrows.hash_eq]
      rw [hs]
      exact hroom i
    obtain ⟨names, t₂, hns, hholds₂, hgrows₂, hall⟩ := ih hholds hroom₁
    refine ⟨n :: names, t₂, ?_, hholds₂, hgrows.trans hgrows₂, .cons (hnames.mono hgrows₂) hall⟩
    rw [internAll]
    simp [hn, hns, bind, Except.bind, pure, Except.pure]

theorem holds_new (hash : String → Nat) : (new hash).Holds (insert "" ∅) := by
  have hat : ∀ i, (new hash).shardAt i = if i = 0 then Shard.add {} "" else {} := by
    intro i
    rw [shardAt, new]
    cases i with
    | zero => rfl
    | succ i =>
      rw [List.getElem?_cons_succ, List.getElem?_replicate]
      split <;> rfl
  constructor
  case length_shards => rfl
  case lookup_iff =>
    intro i text p
    rw [hat]
    split
    case isTrue => exact Shard.lookup_add_iff (by simp) (by simp) text p
    case isFalse => simp
  case mem_iff =>
    intro i text
    have hempty : text ∈ insert "" (∅ : Finset String) ∧ (new hash).shardOf text = i ↔
        text = "" ∧ i = 0 := by
      rw [insert_empty_eq, Finset.mem_singleton]
      exact and_congr_right fun htext => by rw [htext, shardOf_empty, eq_comm]
    rw [hat, hempty]
    split
    case isTrue hi => simp [Shard.add, hi]
    case isFalse hi => simp [hi]
  case length_le =>
    intro i
    rw [hat]
    split <;> simp [Shard.add]
  case entries_eq => rfl
  case first => rfl

theorem hasRoom_insert_empty {texts : Finset String}
    (h : ∀ i, (texts.filter (t.shardOf · = i)).card ≤ Name.maxPosition) : t.HasRoom (insert "" texts) := by
  intro i
  have hle : ((insert "" texts).filter (t.shardOf · = i)).card ≤
      (texts.filter (t.shardOf · = i)).card + 1 := by
    rw [Finset.filter_insert]
    split
    · exact Finset.card_insert_le ..
    · exact Nat.le_succ _
  exact hle.trans (Nat.succ_le_succ (h i))

/-- **Names and texts correspond.** Whatever texts are interned in a new table, with no more
than `Name.maxPosition` different ones for each shard, every call gives a name; two names are equal
exactly when their texts are; looking a name up gives its text, after these calls and after any
`later` ones; only the empty text has the name `Name.empty`; and the size is the number of different
texts, the empty one counted. -/
theorem internAll_names (hash : String → Nat) (texts later : List String)
    (hroom : ∀ i, ((texts ++ later).toFinset.filter ((new hash).shardOf · = i)).card ≤ Name.maxPosition) :
    ∃ names t laterNames t', (new hash).internAll texts = .ok (names, t) ∧
      t.internAll later = .ok (laterNames, t') ∧
      names.length = texts.length ∧
      (∀ p ∈ texts.zip names, ∀ q ∈ texts.zip names, p.2 = q.2 ↔ p.1 = q.1) ∧
      (∀ p ∈ texts.zip names, t.lookup? p.2 = some p.1 ∧ t'.lookup? p.2 = some p.1) ∧
      (∀ p ∈ texts.zip names, p.2 = .empty ↔ p.1 = "") ∧
      t.size = (insert "" texts.toFinset).card := by
  have hroom := hasRoom_insert_empty hroom
  have hall : insert "" (texts ++ later).toFinset = insert "" texts.toFinset ∪ later.toFinset := by
    simp
  rw [hall] at hroom
  have hfirst : insert "" ∅ ∪ texts.toFinset = insert "" texts.toFinset := by simp
  obtain ⟨names, t, hrun, hholds, hgrows, hnames⟩ := exists_internAll texts (holds_new hash) fun i =>
    (Finset.card_le_card (Finset.filter_subset_filter _
      (hfirst ▸ Finset.subset_union_left))).trans (hroom i)
  rw [hfirst] at hholds
  have hs : t.shardOf = (new hash).shardOf := by funext a; rw [shardOf, shardOf, hgrows.hash_eq]
  obtain ⟨names', t', hrun', hholds', hgrows', -⟩ :=
    exists_internAll later hholds fun i => hs ▸ hroom i
  have hmem : ∀ p ∈ texts.zip names, t.Names p.1 p.2 := fun p hp =>
    (List.forall₂_iff_zip.mp hnames).2 hp
  refine ⟨names, t, names', t', hrun, hrun', hnames.length_eq.symm, ?_, ?_, ?_, hholds.entries_eq⟩
  · exact fun p hp q hq => (hmem p hp).eq_iff hholds (hmem q hq)
  · exact fun p hp => ⟨(hmem p hp).lookup?, ((hmem p hp).mono hgrows').lookup?⟩
  · exact fun p hp => (hmem p hp).eq_iff hholds hholds.names_empty

/-- Four texts, two of them equal, in shards 0 and 1, and two more later. -/
theorem internAll_names_four :
    (∀ i, ((["a", "", "b", "a"] ++ ["", "c"]).toFinset.filter
      ((new String.length).shardOf · = i)).card ≤ Name.maxPosition) ∧
    ∃ names t laterNames t',
      (new String.length).internAll ["a", "", "b", "a"] = .ok (names, t) ∧
      t.internAll ["", "c"] = .ok (laterNames, t') ∧
      names.length = 4 ∧
      (∀ p ∈ ["a", "", "b", "a"].zip names, ∀ q ∈ ["a", "", "b", "a"].zip names,
        p.2 = q.2 ↔ p.1 = q.1) ∧
      (∀ p ∈ ["a", "", "b", "a"].zip names, t.lookup? p.2 = some p.1 ∧ t'.lookup? p.2 = some p.1) ∧
      (∀ p ∈ ["a", "", "b", "a"].zip names, p.2 = .empty ↔ p.1 = "") ∧
      t.size = (insert "" ["a", "", "b", "a"].toFinset).card := by
  have hroom : ∀ i, ((["a", "", "b", "a"] ++ ["", "c"]).toFinset.filter
      ((new String.length).shardOf · = i)).card ≤ Name.maxPosition := fun i =>
    (Finset.card_filter_le ..).trans ((List.toFinset_card_le _).trans (by decide))
  exact ⟨hroom, internAll_names String.length _ _ hroom⟩

end StringTable

end RuleCompiler
