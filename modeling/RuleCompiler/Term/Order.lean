import RuleCompiler.Term.Basic

/-! # Equality and a total order on terms

A term is written down as a list of symbols, node before children, that says nothing about which
nodes it consists of. Terms with the same list are equal terms, `t == u`, though they may be
different nodes. `Term.cmp` compares the lists: a total order that unordered collections are
sorted by. -/

namespace RuleCompiler

/-- One entry of a written-down term. -/
abbrev Symbol := Nat × String

/-- The labels of a collection as symbols. -/
def CollectionOps.symbols (ops : CollectionOps) : List Symbol :=
  [(0, ops.sort.name), (0, ops.concat), (0, ops.unit),
    match ops.element with
    | none => (0, "")
    | some e => (1, e)]

def Multiplicity.symbol : Multiplicity → Nat
  | .one => 0
  | .optional => 1
  | .any => 2
  | .atLeastOne => 3

/-- Name, id and sort. -/
def Var.symbols (v : Var) : List Symbol := [(v.id, v.name), (0, v.sort.name)]

theorem CollectionOps.symbols_append_inj {a b : CollectionOps} {x y : List Symbol}
    (h : a.symbols ++ x = b.symbols ++ y) : a = b ∧ x = y := by
  obtain ⟨⟨_⟩, _, _, ea⟩ := a
  obtain ⟨⟨_⟩, _, _, eb⟩ := b
  cases ea <;> cases eb <;> simp_all [symbols]

theorem Multiplicity.symbol_inj {a b : Multiplicity} (h : a.symbol = b.symbol) : a = b := by
  revert h
  cases a <;> cases b <;> simp [symbol]

theorem Var.symbols_append_inj {vs ws : List Var} {x y : List Symbol}
    (hn : vs.length = ws.length) (h : vs.flatMap symbols ++ x = ws.flatMap symbols ++ y) :
    vs = ws ∧ x = y := by
  induction vs generalizing ws with
  | nil => cases ws <;> simp_all
  | cons v vs ih =>
    cases ws with
    | nil => simp at hn
    | cons w ws =>
      obtain ⟨_, ⟨_⟩, _⟩ := v
      obtain ⟨_, ⟨_⟩, _⟩ := w
      simp only [List.flatMap_cons, symbols, List.cons_append, List.nil_append, List.cons.injEq,
        Prod.mk.injEq, true_and] at h
      have := ih (by simpa using hn) h.2.2
      simp [this, h.1, h.2.1]

namespace Node
variable {α : Type}

/-- The label and the multiplicity of a cell as a symbol. -/
def cellSymbol (c : CellOf α) : Symbol := (c.multiplicity.symbol, c.label)

/-- What a node says besides its children, starting with a number for its kind. -/
def head : Node α → List Symbol
  | app (.const l) args s => [(1, l), (args.length, s.name)]
  | app (.freezer _) args s => [(2, s.name), (args.length, "")]
  | token s v => [(3, s.name), (0, v)]
  | seq items frame =>
    (4, "") :: (items.length, "") :: (frame.toList.length, "") :: frame.toList.flatMap Var.symbols
  | list ops l b r => (5, "") :: ops.symbols ++ [(l.length, ""), (b.length, ""), (r.length, "")]
  | map ops es b => (6, "") :: ops.symbols ++ [(es.length, ""), (b.length, "")]
  | set ops es b => (7, "") :: ops.symbols ++ [(es.length, ""), (b.length, "")]
  | cells cs fs =>
    (8, "") :: (cs.length, "") :: (fs.length, "") :: (cs.map cellSymbol ++ fs.flatMap Var.symbols)
  | var v => (9, "") :: v.symbols
  | hole => [(10, "")]
  | labelValue l => [(11, l)]
  | rewrite .. => [(12, "")]
  | disjunction bs => (13, "") :: (bs.length, "") :: bs.map fun b => (b.2.bits, "")
  | rightSides ts => (14, "") :: (ts.length, "") :: ts.map fun t => (if t.isSome then 1 else 0, "")

/-- The head of a node ends where its kind and counts say. -/
theorem head_append_inj {m n : Node α} {x y : List Symbol} (h : m.head ++ x = n.head ++ y) :
    m.head = n.head ∧ x = y := by
  suffices hl : m.head.length = n.head.length from List.append_inj h hl
  have hops : ∀ ops : CollectionOps, ops.symbols.length = 4 := fun ops => by
    simp [CollectionOps.symbols]
  have hvar : ∀ vs : List Var, (vs.flatMap Var.symbols).length = 2 * vs.length := by
    intro vs
    induction vs with
    | nil => rfl
    | cons v vs ih => simp [Var.symbols, ih]; omega
  cases m with
  | app l _ _ =>
    cases l <;> (cases n with
      | app l' _ _ => cases l' <;> simp_all [head]
      | _ => simp_all [head])
  | _ =>
    cases n with
    | app l' _ _ => cases l' <;> simp_all [head]
    | _ => simp_all [head, Var.symbols]

/-- A node is known by its head and its children. -/
theorem eq_of_head_children {m n : Node α} (h : m.head = n.head) (hc : m.children = n.children) :
    m = n := by
  cases m with
  | app l _ s =>
    obtain ⟨s⟩ := s
    cases l <;> (cases n with
      | app l' _ s' => obtain ⟨s'⟩ := s'; cases l' <;> simp_all [head, children]
      | _ => simp_all [head])
  | token s _ =>
    obtain ⟨s⟩ := s
    cases n with
    | app l' _ _ => cases l' <;> simp_all [head]
    | token s' _ => obtain ⟨s'⟩ := s'; simp_all [head]
    | _ => simp_all [head]
  | seq items frame =>
    cases n with
    | app l' _ _ => cases l' <;> simp_all [head]
    | seq items' frame' =>
      simp only [head, List.cons.injEq, Prod.mk.injEq, and_true, true_and] at h
      obtain ⟨h1, -⟩ := Var.symbols_append_inj (x := []) (y := []) h.2.1 (by simpa using h.2.2)
      have : frame = frame' := by cases frame <;> cases frame' <;> simp_all
      simp_all [children]
    | _ => simp_all [head]
  | list ops l b r =>
    cases n with
    | app l' _ _ => cases l' <;> simp_all [head]
    | list ops' l' b' r' =>
      simp only [head, List.cons_append, List.cons.injEq, true_and] at h
      obtain ⟨rfl, hn⟩ := CollectionOps.symbols_append_inj h
      simp only [List.cons.injEq, Prod.mk.injEq, and_true] at hn
      obtain ⟨h1, hc⟩ := List.append_inj hc hn.1
      obtain ⟨h2, h3⟩ := List.append_inj hc hn.2.1
      simp_all
    | _ => simp_all [head]
  | map ops es b =>
    cases n with
    | app l' _ _ => cases l' <;> simp_all [head]
    | map ops' es' b' =>
      simp only [head, List.cons_append, List.cons.injEq, true_and] at h
      obtain ⟨rfl, hn⟩ := CollectionOps.symbols_append_inj h
      simp only [List.cons.injEq, Prod.mk.injEq, and_true] at hn
      have key : ∀ {as bs : List (α × α)} {x y : List α}, as.length = bs.length →
          (as.flatMap fun e => [e.1, e.2]) ++ x = (bs.flatMap fun e => [e.1, e.2]) ++ y →
          as = bs ∧ x = y := by
        intro as
        induction as with
        | nil => intro bs x y hn h; cases bs <;> simp_all
        | cons a as ih =>
          intro bs x y hn h
          cases bs with
          | nil => simp at hn
          | cons b bs =>
            simp only [List.flatMap_cons, List.cons_append, List.nil_append,
              List.cons.injEq] at h
            have := ih (by simpa using hn) h.2.2
            simp [this, Prod.ext_iff, h]
      have := key hn.1 hc
      simp_all
    | _ => simp_all [head]
  | set ops es b =>
    cases n with
    | app l' _ _ => cases l' <;> simp_all [head]
    | set ops' es' b' =>
      simp only [head, List.cons_append, List.cons.injEq, true_and] at h
      obtain ⟨rfl, hn⟩ := CollectionOps.symbols_append_inj h
      simp only [List.cons.injEq, Prod.mk.injEq, and_true] at hn
      obtain ⟨h1, h2⟩ := List.append_inj hc hn.1
      simp_all
    | _ => simp_all [head]
  | cells cs fs =>
    cases n with
    | app l' _ _ => cases l' <;> simp_all [head]
    | cells cs' fs' =>
      simp only [head, List.cons.injEq, Prod.mk.injEq, and_true, true_and] at h
      obtain ⟨hlen, hframes, hrest⟩ := h
      obtain ⟨hl, hfs⟩ := List.append_inj hrest (by simpa using hlen)
      obtain ⟨rfl, -⟩ := Var.symbols_append_inj (x := []) (y := []) hframes (by simpa using hfs)
      have hcs : cs = cs' := by
        clear hrest hfs
        simp only [children] at hc
        induction cs generalizing cs' with
        | nil => cases cs' <;> simp_all
        | cons c cs ih =>
          cases cs' with
          | nil => simp at hlen
          | cons c' cs' =>
            obtain ⟨_, _, _⟩ := c
            obtain ⟨_, _, _⟩ := c'
            simp only [List.map_cons, cellSymbol, List.cons.injEq, Prod.mk.injEq] at hl hc
            simp [ih _ (by simpa using hlen) hl.2 hc.2, hl.1.2, hc.1,
              Multiplicity.symbol_inj hl.1.1]
      simp [hcs]
    | _ => simp_all [head]
  | var v =>
    cases n with
    | app l' _ _ => cases l' <;> simp_all [head]
    | var w =>
      obtain ⟨_, ⟨_⟩, _⟩ := v
      obtain ⟨_, ⟨_⟩, _⟩ := w
      simp_all [head, Var.symbols]
    | _ => simp_all [head]
  | disjunction bs =>
    cases n with
    | app l' _ _ => cases l' <;> simp_all [head]
    | disjunction bs' =>
      simp only [head, List.cons.injEq, true_and] at h
      obtain ⟨-, h⟩ := h
      simp only [children] at hc
      congr 1
      induction bs generalizing bs' with
      | nil => cases bs' <;> simp_all
      | cons b bs ih =>
        cases bs' with
        | nil => simp at h
        | cons b' bs' =>
          simp only [List.map_cons, List.cons.injEq, Prod.mk.injEq, and_true,
            RuleSet.bits_inj] at h hc
          simp [ih _ hc.2 h.2, Prod.ext hc.1 h.1]
    | _ => simp_all [head]
  | rightSides ts =>
    cases n with
    | app l' _ _ => cases l' <;> simp_all [head]
    | rightSides ts' =>
      simp only [head, List.cons.injEq, true_and] at h
      obtain ⟨-, h⟩ := h
      simp only [children] at hc
      congr 1
      induction ts generalizing ts' with
      | nil => cases ts' <;> simp_all
      | cons t ts ih =>
        cases ts' with
        | nil => simp at h
        | cons t' ts' =>
          simp only [List.map_cons, List.cons.injEq, Prod.mk.injEq, and_true] at h
          cases t <;> cases t' <;> simp at h hc ⊢
          · exact ih _ hc h
          · exact ⟨hc.1, ih _ hc.2 h⟩
    | _ => simp_all [head]
  | _ =>
    cases n with
    | app l' _ _ => cases l' <;> simp_all [head]
    | _ => simp_all [head, children]

theorem length_present {ts us : List (Option α)}
    (h : (ts.map fun t => ((if t.isSome then 1 else 0 : Nat), "")) =
      us.map fun t => ((if t.isSome then 1 else 0 : Nat), "")) :
    (ts.filterMap id).length = (us.filterMap id).length := by
  induction ts generalizing us with
  | nil => cases us <;> simp_all
  | cons t ts ih =>
    cases us with
    | nil => simp at h
    | cons u us =>
      simp only [List.map_cons, List.cons.injEq] at h
      have := ih h.2
      cases t <;> cases u <;> simp_all

theorem length_entries (es : List (α × α)) :
    (es.flatMap fun e => [e.1, e.2]).length = 2 * es.length := by
  induction es with
  | nil => rfl
  | cons e es ih => simp [ih]; omega

/-- Nodes with the same head have equally many children. -/
theorem length_children_of_head {m n : Node α} (h : m.head = n.head) :
    m.children.length = n.children.length := by
  cases m with
  | app l _ _ =>
    cases l <;> (cases n with
      | app l' _ _ => cases l' <;> simp_all [head, children]
      | _ => simp_all [head])
  | list ops l b r =>
    cases n with
    | app l' _ _ => cases l' <;> simp_all [head]
    | list =>
      simp only [head, List.cons_append, List.cons.injEq, true_and] at h
      have := (CollectionOps.symbols_append_inj h).2
      simp_all [children]
    | _ => simp_all [head]
  | map ops es b =>
    cases n with
    | app l' _ _ => cases l' <;> simp_all [head]
    | map =>
      simp only [head, List.cons_append, List.cons.injEq, true_and] at h
      have := (CollectionOps.symbols_append_inj h).2
      simp only [List.cons.injEq, Prod.mk.injEq, and_true] at this
      simp only [children, List.length_append, length_entries, this]
    | _ => simp_all [head]
  | set ops es b =>
    cases n with
    | app l' _ _ => cases l' <;> simp_all [head]
    | set =>
      simp only [head, List.cons_append, List.cons.injEq, true_and] at h
      have := (CollectionOps.symbols_append_inj h).2
      simp_all [children]
    | _ => simp_all [head]
  | rightSides ts =>
    cases n with
    | app l' _ _ => cases l' <;> simp_all [head]
    | rightSides =>
      simp only [head, List.cons.injEq, true_and] at h
      exact length_present h.2
    | _ => simp_all [head]
  | _ =>
    cases n with
    | app l' _ _ => cases l' <;> simp_all [head]
    | _ => simp_all [head, children]

end Node

namespace Term

/-! ### Induction -/

/-- The number of nodes. -/
def size : Term → Nat := fold fun _ sizes => 1 + sizes.foldr (· + ·) 0

theorem size_eq (t : Term) : t.size = 1 + (t.children.map size).foldr (· + ·) 0 := fold_eq _ t

theorem size_pos (t : Term) : 0 < t.size := by rw [size_eq]; omega

theorem size_child {t c : Term} (h : c ∈ t.children) : c.size < t.size := by
  have : ∀ ts : List Term, c ∈ ts → c.size ≤ (ts.map size).foldr (· + ·) 0 := by
    intro ts
    induction ts with
    | nil => simp
    | cons u ts ih =>
      intro h
      rcases List.mem_cons.mp h with rfl | h
      · simp
      · simpa using Nat.le_trans (ih h) (Nat.le_add_left ..)
  rw [t.size_eq]
  have := this _ h
  omega

/-- Induction from the children of a node to the node. -/
theorem induction {P : Term → Prop} (h : ∀ t, (∀ c ∈ t.children, P c) → P t) (t : Term) : P t :=
  h t fun c _ => induction h c
termination_by t.size
decreasing_by exact size_child ‹_›

/-! ### Codes -/

/-- A term written down in front of `rest`: the head of the node, then its children. -/
def codeBefore : Term → List Symbol → List Symbol :=
  fold fun t below rest => t.node.head ++ below.foldr (fun code rest => code rest) rest

/-- A term written down. -/
def code (t : Term) : List Symbol := t.codeBefore []

theorem codeBefore_eq (t : Term) : ∀ rest, t.codeBefore rest = t.code ++ rest := by
  induction t using induction with
  | h t ih =>
    have key : ∀ (ts : List Term), (∀ c ∈ ts, ∀ rest, c.codeBefore rest = c.code ++ rest) →
        ∀ rest, (ts.map codeBefore).foldr (fun code rest => code rest) rest =
          (ts.map code).flatten ++ rest := by
      intro ts
      induction ts with
      | nil => simp
      | cons c ts ih =>
        intro h rest
        simp [h c (by simp), ih fun c hc => h c (List.mem_cons_of_mem _ hc)]
    intro rest
    rw [code, codeBefore, fold_eq, ← codeBefore, key _ ih, key _ ih]
    simp

theorem code_eq (t : Term) : t.code = t.node.head ++ (t.children.map code).flatten := by
  have key : ∀ ts : List Term, (ts.map codeBefore).foldr (fun code rest => code rest) [] =
      (ts.map code).flatten := by
    intro ts
    induction ts with
    | nil => rfl
    | cons c ts ih => simp [ih, codeBefore_eq]
  rw [code, codeBefore, fold_eq, ← codeBefore, key]

/-- A code ends where its term does. -/
theorem code_append_inj (t : Term) :
    ∀ {u : Term} {x y : List Symbol}, t.code ++ x = u.code ++ y →
      t.node.head = u.node.head ∧ t.children.map code = u.children.map code ∧ x = y := by
  induction t using induction with
  | h t ih =>
    intro u x y h
    rw [code_eq, code_eq, List.append_assoc, List.append_assoc] at h
    obtain ⟨hm, h⟩ := Node.head_append_inj h
    refine ⟨hm, ?_⟩
    have hlen : t.children.length = u.children.length := Node.length_children_of_head hm
    generalize t.children = ts at ih hlen h
    generalize u.children = us at hlen h
    clear hm
    induction ts generalizing us with
    | nil => cases us <;> simp_all
    | cons c cs ihs =>
      cases us with
      | nil => simp at hlen
      | cons d ds =>
        simp only [List.map_cons, List.flatten_cons, List.append_assoc] at h
        obtain ⟨hhead, hbelow, hrest⟩ := ih c (List.mem_cons_self ..) h
        obtain ⟨hcs, hxy⟩ := ihs (fun c hc => ih c (List.mem_cons_of_mem _ hc)) ds
          (by simpa using hlen) hrest
        refine ⟨?_, hxy⟩
        rw [List.map_cons, List.map_cons, hcs, code_eq c, code_eq d, hhead, hbelow]

/-- Equal codes are those of nodes with the same head and children of equal codes. -/
theorem code_eq_iff {t u : Term} : t.code = u.code ↔
    t.node.head = u.node.head ∧ t.children.map code = u.children.map code := by
  refine ⟨fun h => ?_, fun h => by rw [code_eq, code_eq u, h.1, h.2]⟩
  obtain ⟨h1, h2, -⟩ := code_append_inj t (u := u) (x := []) (y := []) (by simpa using h)
  exact ⟨h1, h2⟩

/-- Equality of terms, whichever nodes they are. -/
instance : BEq Term := ⟨fun t u => t.code == u.code⟩

theorem beq_iff {t u : Term} : t == u ↔ t.code = u.code := by
  change (t.code == u.code) = true ↔ _
  exact beq_iff_eq

instance : EquivBEq Term where
  rfl := beq_iff.2 rfl
  symm h := beq_iff.2 (beq_iff.1 h).symm
  trans h h' := beq_iff.2 ((beq_iff.1 h).trans (beq_iff.1 h'))

/-! ### Order -/

/-- Symbols are compared by number, then by text. -/
def compareSymbol : Symbol → Symbol → Ordering :=
  compareLex (compareOn Prod.fst) (compareOn Prod.snd)

instance : Std.TransCmp compareSymbol := by unfold compareSymbol; infer_instance

instance : Std.LawfulEqCmp compareSymbol where
  compare_self := by intro a; simp [compareSymbol, compareLex, compareOn]
  eq_of_compare := by
    intro a b h
    simp only [compareSymbol, compareLex, compareOn, Ordering.then_eq_eq,
      Std.LawfulEqCmp.compare_eq_iff_eq] at h
    exact Prod.ext h.1 h.2

/-- The order that the parts of unordered collections are kept in: that of their codes. -/
def cmp (t u : Term) : Ordering := List.compareLex compareSymbol t.code u.code

/-- The comparison of codes, which `cmp` goes by. -/
abbrev cmpCode : List Symbol → List Symbol → Ordering := List.compareLex compareSymbol

instance : Std.TransCmp cmp where
  eq_swap {t u} := @Std.OrientedCmp.eq_swap _ cmpCode _ t.code u.code
  isLE_trans {t u v} := @Std.TransCmp.isLE_trans _ cmpCode _ t.code u.code v.code

/-- The order tells unequal terms apart. -/
theorem cmp_eq_iff {t u : Term} : t.cmp u = .eq ↔ t == u := by
  rw [beq_iff]
  exact ⟨@Std.LawfulEqCmp.eq_of_compare _ cmpCode _ t.code u.code,
    fun h => by rw [cmp, h]; exact @Std.ReflCmp.compare_self _ cmpCode _ u.code⟩

end Term

end RuleCompiler
