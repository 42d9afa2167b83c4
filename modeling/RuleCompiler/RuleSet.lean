/-! # Sets of rule ids

A set of rule ids is a list of 64-bit words whose binary digits say which ids are in it. The last
word is never zero, so that two sets are equal exactly when they have the same members
(`RuleSet.ext`). -/

namespace RuleCompiler

/-- Ids in one word. -/
abbrev wordBits : Nat := 64

/-- As many ids in a row, one for each binary digit. -/
abbrev Word := BitVec 64

namespace Word

/-- The places of the digits that are one, ascending. -/
def ones (w : Word) : List Nat := (List.range wordBits).filter w.getLsbD

/-- Word `i` of a list that goes on with zero words. -/
def nth (ws : List Word) (i : Nat) : Word := ws[i]?.getD 0#64

/-- The last word, if there is one, is not zero. -/
def AreTrimmed (ws : List Word) : Prop := ws.getLast? ≠ some 0#64

/-- `ws` with zero words after it, so that there are at least `n`. -/
def extend (ws : List Word) (n : Nat) : List Word := ws ++ List.replicate (n - ws.length) 0#64

/-- `ws` without the zero words at its end. -/
def trim : List Word → List Word
  | [] => []
  | w :: ws => if w = 0#64 ∧ trim ws = [] then [] else w :: trim ws

/-- `ws` with the digit of `rule` set. -/
def setDigit (ws : List Word) (rule : Nat) : List Word :=
  (extend ws (rule / wordBits + 1)).modify (rule / wordBits)
    (· ||| BitVec.twoPow 64 (rule % wordBits))

def or (ws vs : List Word) : List Word := (extend ws vs.length).mapIdx fun i w => w ||| nth vs i

def and (ws vs : List Word) : List Word := trim (List.zipWith (· &&& ·) ws vs)

/-- The words as the digits of one number, the lowest first. -/
def number (ws : List Word) : Nat := ws.foldr (fun w n => n <<< wordBits + w.toNat) 0

theorem nth_eq (ws : List Word) (i : Nat) : nth ws i = ws[i]?.getD 0#64 := rfl

theorem trim_cons (w : Word) (ws : List Word) :
    trim (w :: ws) = if w = 0#64 ∧ trim ws = [] then [] else w :: trim ws := rfl

theorem areTrimmed_iff {ws : List Word} :
    AreTrimmed ws ↔ ∀ i, ws.length = i + 1 → nth ws i ≠ 0#64 := by
  rw [AreTrimmed, List.getLast?_eq_getElem?]
  cases ws with
  | nil => simp
  | cons w ws => simp [nth_eq]

theorem nth_of_length_le {ws : List Word} {i : Nat} (h : ws.length ≤ i) : nth ws i = 0#64 := by
  rw [nth_eq, List.getElem?_eq_none h, Option.getD_none]

/-- Trimmed lists that agree on every word are equal. -/
theorem eq_of_nth {ws vs : List Word} (hw : AreTrimmed ws) (hv : AreTrimmed vs)
    (h : ∀ i, nth ws i = nth vs i) : ws = vs := by
  have not_longer : ∀ {ws vs : List Word}, AreTrimmed ws → (∀ i, nth ws i = nth vs i) →
      ws.length ≤ vs.length := by
    intro ws vs hw h
    rw [areTrimmed_iff] at hw
    refine Nat.le_of_not_lt fun hl => hw (ws.length - 1) (by omega) ?_
    rw [h, nth_of_length_le (by omega)]
  have hl : ws.length = vs.length :=
    Nat.le_antisymm (not_longer hw h) (not_longer hv fun i => (h i).symm)
  refine List.ext_getElem hl fun i hi hi' => ?_
  simpa [nth_eq, hi, hi'] using h i

@[simp] theorem length_extend (ws : List Word) (n : Nat) :
    (extend ws n).length = max ws.length n := by
  simp [extend]
  omega

@[simp] theorem nth_extend (ws : List Word) (n i : Nat) : nth (extend ws n) i = nth ws i := by
  simp only [nth_eq, extend, List.getElem?_append, List.getElem?_replicate]
  split
  case isTrue => rfl
  case isFalse hi =>
    rw [List.getElem?_eq_none (Nat.le_of_not_lt hi), Option.getD_none]
    split <;> rfl

@[simp] theorem nth_trim (ws : List Word) (i : Nat) : nth (trim ws) i = nth ws i := by
  induction ws generalizing i with
  | nil => rfl
  | cons w ws ih =>
    by_cases h : w = 0#64 ∧ trim ws = []
    · cases i with
      | zero => simp [trim_cons, h, nth_eq]
      | succ i => simpa [trim_cons, h, nth_eq] using ih i
    · cases i with
      | zero => simp [trim_cons, h, nth_eq]
      | succ i => simpa [trim_cons, h, nth_eq] using ih i

theorem areTrimmed_trim (ws : List Word) : AreTrimmed (trim ws) := by
  induction ws with
  | nil => simp [AreTrimmed, trim]
  | cons w ws ih =>
    by_cases h : w = 0#64 ∧ trim ws = []
    · simp [AreTrimmed, trim_cons, h]
    · rw [trim_cons, if_neg h, AreTrimmed, List.getLast?_cons]
      cases ht : (trim ws).getLast? with
      | none => simp_all
      | some v => simpa [AreTrimmed, ht] using ih

theorem length_setDigit (ws : List Word) (rule : Nat) :
    (setDigit ws rule).length = max ws.length (rule / wordBits + 1) := by simp [setDigit]

theorem nth_setDigit (ws : List Word) (rule i : Nat) :
    nth (setDigit ws rule) i =
      nth ws i ||| if rule / wordBits = i then BitVec.twoPow 64 (rule % wordBits) else 0#64 := by
  rw [← nth_extend ws (rule / wordBits + 1), setDigit, nth_eq, nth_eq, List.getElem?_modify]
  split
  case isTrue hi =>
    subst hi
    have : rule / wordBits < (extend ws (rule / wordBits + 1)).length := by
      rw [length_extend]; omega
    rw [List.getElem?_eq_getElem this]
    rfl
  case isFalse => simp

theorem length_or (ws vs : List Word) : (or ws vs).length = max ws.length vs.length := by simp [or]

theorem nth_or (ws vs : List Word) (i : Nat) : nth (or ws vs) i = nth ws i ||| nth vs i := by
  by_cases hi : i < (or ws vs).length
  · have hi' : i < (extend ws vs.length).length := by simpa [or] using hi
    rw [← nth_extend ws vs.length, nth_eq, nth_eq, or, List.getElem?_mapIdx,
      List.getElem?_eq_getElem hi']
    rfl
  · rw [length_or] at hi
    rw [nth_of_length_le (by rw [length_or]; omega), nth_of_length_le (by omega),
      nth_of_length_le (by omega), BitVec.or_zero]

theorem nth_and (ws vs : List Word) (i : Nat) : nth (and ws vs) i = nth ws i &&& nth vs i := by
  rw [and, nth_trim, nth_eq, List.getElem?_zipWith, nth_eq, nth_eq]
  cases ws[i]? <;> cases vs[i]? <;> simp

theorem areTrimmed_setDigit {ws : List Word} (h : AreTrimmed ws) (rule : Nat) :
    AreTrimmed (setDigit ws rule) := by
  rw [areTrimmed_iff] at h ⊢
  intro i hi
  rw [length_setDigit] at hi
  rw [nth_setDigit, Ne, BitVec.or_eq_zero_iff]
  rintro ⟨hz, ho⟩
  by_cases hr : rule / wordBits = i
  · have hb := congrArg (·.getLsbD (rule % wordBits)) ho
    have : rule % wordBits < 64 := Nat.mod_lt _ (by decide)
    simp [hr, this] at hb
  · exact h i (by omega) hz

theorem areTrimmed_or {ws vs : List Word} (hw : AreTrimmed ws) (hv : AreTrimmed vs) :
    AreTrimmed (or ws vs) := by
  rw [areTrimmed_iff] at hw hv ⊢
  intro i hi
  rw [length_or] at hi
  rw [nth_or, Ne, BitVec.or_eq_zero_iff]
  rintro ⟨hwz, hvz⟩
  by_cases hl : vs.length ≤ ws.length
  · exact hw i (by omega) hwz
  · exact hv i (by omega) hvz

theorem testBit_number (ws : List Word) (i : Nat) :
    (number ws).testBit i = (nth ws (i / wordBits)).getLsbD (i % wordBits) := by
  induction ws generalizing i with
  | nil => simp [number, nth_eq]
  | cons w ws ih =>
    rw [number, List.foldr_cons, Nat.shiftLeft_eq, Nat.mul_comm, Nat.testBit_two_pow_mul_add _ w.isLt]
    split
    case isTrue hi => simp [nth_eq, Nat.div_eq_of_lt hi, Nat.mod_eq_of_lt hi]; rfl
    case isFalse hi =>
      have hi : wordBits ≤ i := Nat.le_of_not_lt hi
      have hpos : 0 < wordBits := by decide
      rw [Nat.div_eq_sub_div hpos hi, Nat.mod_eq_sub_mod hi]
      exact ih (i - wordBits)

end Word

open Word

/-- A set of rule ids; id `64 * i + b` is in the set when digit `b` of word `i` is one. -/
structure RuleSet where
  words : List Word
  trimmed : AreTrimmed words
deriving DecidableEq

namespace RuleSet

def empty : RuleSet := ⟨[], by simp [AreTrimmed]⟩

instance : Inhabited RuleSet := ⟨empty⟩

def contains (s : RuleSet) (rule : Nat) : Bool :=
  (nth s.words (rule / wordBits)).getLsbD (rule % wordBits)

def insert (s : RuleSet) (rule : Nat) : RuleSet :=
  ⟨setDigit s.words rule, areTrimmed_setDigit s.trimmed rule⟩

def singleton (rule : Nat) : RuleSet := empty.insert rule

def ofList (rules : List Nat) : RuleSet := rules.foldl insert empty

def union (s t : RuleSet) : RuleSet := ⟨or s.words t.words, areTrimmed_or s.trimmed t.trimmed⟩

def inter (s t : RuleSet) : RuleSet := ⟨and s.words t.words, areTrimmed_trim _⟩

def isEmpty (s : RuleSet) : Bool := s.words.all (· == 0#64)

/-- The ids in the set, ascending. -/
def toList (s : RuleSet) : List Nat :=
  (s.words.mapIdx fun i w => w.ones.map (wordBits * i + ·)).flatten

def size (s : RuleSet) : Nat := s.words.foldr (fun w n => w.ones.length + n) 0

/-- The words as one number. -/
def bits (s : RuleSet) : Nat := number s.words

/-- The ids in braces, ascending. -/
def render (s : RuleSet) : String :=
  "\x7b" ++ String.intercalate ", " (s.toList.map toString) ++ "\x7d"

theorem ext {s t : RuleSet} (h : ∀ i, s.contains i = t.contains i) : s = t := by
  suffices hw : s.words = t.words by cases s; cases t; simpa using hw
  refine eq_of_nth s.trimmed t.trimmed fun i => BitVec.eq_of_getLsbD_eq fun b hb => ?_
  have := h (wordBits * i + b)
  simpa [contains, Nat.mul_add_div, Nat.mul_add_mod, wordBits, Nat.mod_eq_of_lt hb,
    Nat.div_eq_of_lt hb] using this

@[simp] theorem contains_empty (i : Nat) : empty.contains i = false := by
  simp [contains, empty, nth_eq]

@[simp] theorem contains_insert (s : RuleSet) (r i : Nat) :
    (s.insert r).contains i = (s.contains i || decide (r = i)) := by
  have hb : i % wordBits < 64 := Nat.mod_lt _ (by decide)
  have hr : r = i ↔ r / wordBits = i / wordBits ∧ r % wordBits = i % wordBits := by
    refine ⟨fun h => h ▸ ⟨rfl, rfl⟩, fun h => ?_⟩
    rw [← Nat.div_add_mod r wordBits, h.1, h.2, Nat.div_add_mod]
  rw [contains, insert, nth_setDigit, BitVec.getLsbD_or, contains]
  split
  case isTrue h => simp [hb, hr, h, eq_comm]
  case isFalse h => simp [hr, h]

@[simp] theorem contains_union (s t : RuleSet) (i : Nat) :
    (s.union t).contains i = (s.contains i || t.contains i) := by
  simp [contains, union, nth_or]

@[simp] theorem contains_inter (s t : RuleSet) (i : Nat) :
    (s.inter t).contains i = (s.contains i && t.contains i) := by
  simp [contains, inter, nth_and]

@[simp] theorem testBit_bits (s : RuleSet) (i : Nat) : s.bits.testBit i = s.contains i :=
  testBit_number s.words i

theorem bits_inj {s t : RuleSet} : s.bits = t.bits ↔ s = t :=
  ⟨fun h => ext fun i => by rw [← testBit_bits, h, testBit_bits], congrArg bits⟩

end RuleSet

end RuleCompiler
