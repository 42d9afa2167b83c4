import RuleCompiler.Proofs.Matching.Comparison
import RuleCompiler.Proofs.Term.LeftSide

/-! # Patterns with rewrites

A match looks at the left side of a rewrite only. So a pattern finds what its left side finds, as long as
no rewrite stands where the match looks at parts of the pattern itself: among keys and elements, over
segments of sequences and runs of lists, and in collections that have no variables and would only be
compared. -/

namespace RuleCompiler

open Term (LeftOf IsHeap gives_leftSide)
open Build (Gives)

/-- Whether the term is a list. -/
def Term.isList (t : Term) : Bool :=
  match t.node with
  | .list .. => true
  | _ => false

namespace Labelling
variable (L : Labelling)

/-- Labels carry what they should throughout the term. -/
def FitsAll (t : Term) : Prop := t.everyNode fun u => L.fits u.node

instance (t : Term) : Decidable (L.FitsAll t) := inferInstanceAs (Decidable (_ = true))

/-- Whether a node above rewrites is matched as with their left sides in place of them. -/
def looksThrough (t : Term) : Bool :=
  let isWhole (b : Term) := !b.hasRewrite || b.isRewrite
  match t.node with
  | .app .. => L.fits t.node || !t.rawLeft.isGround
  | .seq items _ => items.all fun c => !c.isRewrite || (Matching.segment? c.rawLeft).isNone
  | .list _ _ base _ =>
    !t.rawLeft.isGround && base.all fun b => !b.hasRewrite || b.isRewrite != b.rawLeft.isList
  | .map _ entries base =>
    !t.rawLeft.isGround && entries.all (fun e => !e.1.hasRewrite) && base.all isWhole
  | .set _ elements base =>
    !t.rawLeft.isGround && elements.all (fun e => !e.hasRewrite) && base.all isWhole
  | .cells .. => !t.rawLeft.isGround
  | _ => true

/-- The left side of the pattern has nothing to be put in order, and a match looks through its rewrites. -/
def LooksThrough (p : Term) : Prop :=
  p.HasPlainLeft ∧ p.everyNode fun t => !t.hasRewrite || L.looksThrough t

instance (p : Term) : Decidable (L.LooksThrough p) := inferInstanceAs (Decidable (_ ∧ _))

end Labelling

namespace Matching

variable {S : Term → Prop} {go go' deeper : Matcher} {L : Labelling} {p q s t u : Term}

/-- Whatever the bound, if it is large enough, the two patterns find the same. -/
def FindsSame (S : Term → Prop) (p q : Term) : Prop :=
  ∀ deeper n m, p.size ≤ n → q.size ≤ m → Agree S (upTo deeper n) (upTo deeper m) p q

theorem findsSame_of_node (h : q.node = p.node) : FindsSame (fun _ => True) p q := by
  intro deeper n m hn hm
  have hsize : q.size = p.size := by rw [Term.size_eq, Term.size_eq p, Term.children, Term.children, h]
  exact upTo_agree h hn (hsize ▸ hm)

theorem isCompared_of_hasRewrite (h : p.hasRewrite) : isCompared p = false := by
  rw [isCompared, h]
  simp

/-- A rewrite finds what its left side finds. -/
theorem findsSame_side {l r : Term} (hn : p.node = .rewrite l r) (hq : q.node = l.node) :
    FindsSame (fun _ => True) p q := by
  intro deeper n m hpn hqm
  have hl : l ∈ p.children := by
    rw [Term.children, hn]
    exact List.mem_cons_self
  have hsize := Term.size_child hl
  have hrewrite : p.hasRewrite := Term.hasRewrite_of_isRewrite (by rw [Term.isRewrite, hn])
  intro s _ st
  cases n with
  | zero => omega
  | succ n =>
    have hleft : upTo deeper (n + 1) p s st = upTo deeper n l s st := by
      have hp := isCompared_of_hasRewrite hrewrite
      rw [isCompared] at hp
      rw [upTo, node, if_neg (by rw [hp]; exact Bool.false_ne_true), hn]
    rw [hleft]
    exact findsSame_of_node hq deeper n m (by omega) hqm s trivial st

/-! ### Nodes above rewrites -/

/-- A part of a list with rewrites is one, or it is a run of items. -/
theorem partsAgree_of_leftOf (hpart : (!p.hasRewrite || p.isRewrite != p.rawLeft.isList) = true)
    (h : LeftOf p q) (hS : Agree S go go' p q)
    (htrue : p.hasRewrite = false ∨ p.isRewrite → Agree (fun _ => True) go go' p q)
    (hrun : p.isRewrite = false → ∀ c ∈ p.children, ∀ d ∈ q.children, LeftOf c d → Agree S go go' c d) :
    PartsAgree S go go' p q := by
  have hruns {ops ops' : CollectionOps} {run run' base base' right right' : List Term}
      (hp : p.node = .list ops run base right) (hq : q.node = .list ops' run' base' right')
      (hc : List.Forall₂ LeftOf run run') : List.Forall₂ (Agree S go go') run run' := by
    have hrun := hrun (by rw [Term.isRewrite, hp])
    rw [Term.children, hp, Term.children, hq] at hrun
    exact PairedLists.imp_mem hc fun c hc d hd =>
      hrun c (List.mem_append_left _ hc) d (List.mem_append_left _ hd)
  cases h with
  | kept h hq =>
    by_cases hlist : ∃ ops run base right, p.node = .list ops run base right
    · obtain ⟨ops, run, base, right, hp⟩ := hlist
      refine .run hp (hq.trans hp) rfl (hruns hp (hq.trans hp) ?_) hS
      refine List.forall₂_same.mpr fun c hc => .kept (Term.hasRewrite_child h ?_) rfl
      rw [Term.children, hp]
      exact List.mem_append_left _ hc
    · push Not at hlist
      exact .part hlist (by rwa [hq]) (htrue (.inl h))
  | @side _ _ l r hn hl hq =>
    have hrewrite : p.isRewrite := by rw [Term.isRewrite, hn]
    rw [Term.hasRewrite_of_isRewrite hrewrite, hrewrite, Term.rawLeft_of_rewrite hn, Term.rawLeft_self hl] at hpart
    refine .part (fun _ _ _ _ h => by rw [hn] at h; cases h) (fun _ _ _ _ h => ?_) (htrue (.inr hrewrite))
    rw [hq] at h
    rw [Term.isList, h] at hpart
    cases hpart
  | made h hr hhead hc _ =>
    rw [h, hr, Term.rawLeft_of_not_rewrite hr] at hpart
    have halike : Node.Alike LeftOf p.node q.node := Node.alike_of_head hhead hc
    have hlist : ∃ ops run base right, p.node = .list ops run base right := by
      unfold Term.isList at hpart
      cases hp : p.node with
      | list => exact ⟨_, _, _, _, rfl⟩
      | app label => cases label <;> simp [hp, Node.mapChildren] at hpart
      | _ => simp [hp, Node.mapChildren] at hpart
    obtain ⟨ops, run, base, right, hp⟩ := hlist
    rw [hp] at halike
    generalize hq : q.node = n at halike
    cases halike with
    | list hl hb hr =>
      refine .run hp hq ?_ (hruns hp hq hl) hS
      cases hb <;> rfl

/-- Items are segments where their left sides are. -/
theorem segment?_of_leftOf (hitem : (!p.isRewrite || (segment? p.rawLeft).isNone) = true)
    (h : LeftOf p q) : segment? p = segment? q := by
  rw [Term.segment?_congr h.beq]
  cases hr : p.isRewrite with
  | true =>
    rw [hr, Bool.not_true, Bool.false_or, Option.isNone_iff_eq_none] at hitem
    have hvar : p.asVar? = none := by
      unfold Term.isRewrite at hr
      unfold Term.asVar?
      split <;> simp_all
    rw [hitem, segment?, hvar]
    rfl
  | false =>
    have hvar : p.asVar? = p.rawLeft.asVar? := by
      rw [Term.rawLeft_of_not_rewrite hr, Term.asVar?, Term.asVar?]
      cases p.node with
      | app label => cases label <;> rfl
      | _ => rfl
    rw [segment?, segment?, hvar]

/-- Nodes that differ in rewrites below them agree if their parts find the same. -/
theorem nodesAgree_of_leftOf (hr : t.isRewrite = false) (hplain : t.hasPlainLeft) (hlook : L.looksThrough t)
    (hhead : t.node.head = u.node.head) (hc : List.Forall₂ LeftOf t.children u.children)
    (hkept : t.node.isKeyed →
      List.Forall₂ (fun c d => c.hasRewrite = false → d = c) t.children u.children)
    (hS : ∀ c ∈ t.children, ∀ d ∈ u.children, LeftOf c d → Agree S go go' c d)
    (htrue : ∀ c ∈ t.children, ∀ d ∈ u.children, LeftOf c d → c.hasRewrite = false ∨ c.isRewrite →
      Agree (fun _ => True) go go' c d)
    (hruns : ∀ b ∈ t.children, ∀ b' ∈ u.children, LeftOf b b' → b.isRewrite = false →
      ∀ c ∈ b.children, ∀ d ∈ b'.children, LeftOf c d → Agree S go go' c d) : NodesAgree S go go' t.node u.node := by
  let R (c d : Term) : Prop := (c ∈ t.children ∧ d ∈ u.children ∧ LeftOf c d) ∧
    (t.node.isKeyed → c.hasRewrite = false → d = c)
  have hpairs : List.Forall₂ R t.children u.children := by
    have hmem : List.Forall₂ (fun c d => c ∈ t.children ∧ d ∈ u.children ∧ LeftOf c d)
        t.children u.children := PairedLists.imp_mem hc fun c hc d hd h => ⟨hc, hd, h⟩
    cases hk : t.node.isKeyed with
    | true => exact PairedLists.and hmem ((hkept hk).imp fun _ _ h _ => h)
    | false => exact hmem.imp fun _ _ h => ⟨h, fun hk' => absurd (hk.symm.trans hk') Bool.false_ne_true⟩
  have halike := Node.alike_of_head hhead hpairs
  have hagree {ts us : List Term} (h : List.Forall₂ R ts us) : List.Forall₂ (Agree S go go') ts us :=
    h.imp fun c d h => hS c h.1.1 d h.1.2.1 h.1.2.2
  have hwhole {ts us : List Term} (hts : (ts.all fun b => !b.hasRewrite || b.isRewrite) = true)
      (h : List.Forall₂ R ts us) : List.Forall₂ (Agree (fun _ => True) go go') ts us :=
    PairedLists.imp_mem h fun c hc d _ h => htrue c h.1.1 d h.1.2.1 h.1.2.2 (by
      simpa using List.all_eq_true.mp hts c hc)
  have hkeyed {n : Node Term} (hn : t.node = n) (hk : n.isKeyed) {c d : Term} (h : R c d)
      (hc : (!c.hasRewrite) = true) : c = d :=
    (h.2 (hn ▸ hk) (Bool.not_eq_true' _ ▸ hc)).symm
  unfold Labelling.looksThrough at hlook
  unfold Term.hasPlainLeft at hplain
  unfold Term.isRewrite at hr
  dsimp only at hlook
  generalize hm : t.node = m, hn : u.node = n at halike
  rw [hm] at hlook hplain hr
  cases halike with
  | app h => exact .app (hagree h)
  | freezer hf h => exact .freezer (hS _ hf.1.1 _ hf.1.2.1 hf.1.2.2) (hagree h)
  | seq h =>
    refine .seq (PairedLists.imp_mem h fun c hc d _ h => ⟨hS c h.1.1 d h.1.2.1 h.1.2.2, ?_⟩)
    exact segment?_of_leftOf (List.all_eq_true.mp hlook c hc) h.1.2.2
  | list hl hb hright =>
    obtain ⟨-, hbase⟩ := (Bool.and_eq_true _ _).mp hlook
    refine .list (hagree hl) (PairedLists.imp_mem hb fun b hb d _ h => ?_) (hagree hright)
    obtain ⟨hbt, hdu, h⟩ := h.1
    exact partsAgree_of_leftOf (List.all_eq_true.mp hbase b hb) h (hS b hbt d hdu h) (htrue b hbt d hdu h)
      (hruns b hbt d hdu h)
  | map he hb =>
    simp only [Bool.and_eq_true] at hlook
    obtain ⟨⟨-, hkeys⟩, hbase⟩ := hlook
    refine .map (PairedLists.imp_mem he fun e hmem e' _ h => ⟨?_, ?_⟩) (hwhole hbase hb)
    · exact hkeyed hm rfl h.1 (List.all_eq_true.mp hkeys e hmem)
    · exact hS e.2 h.2.1.1 e'.2 h.2.1.2.1 h.2.1.2.2
  | @set ops es es' base base' he hb =>
    simp only [Bool.and_eq_true] at hlook
    obtain ⟨⟨-, helements⟩, hbase⟩ := hlook
    have hes : List.Forall₂ Eq es es' := PairedLists.imp_mem he fun e hmem e' _ h =>
      hkeyed hm rfl h (List.all_eq_true.mp helements e hmem)
    rw [List.forall₂_eq_eq_eq] at hes
    rw [hes]
    exact .set (hwhole hbase hb)
  | cells h => exact .cells (h.imp fun c d h => ⟨h.1, hS _ h.2.2.1.1 _ h.2.2.1.2.1 h.2.2.1.2.2⟩)
  | rewrite => cases hr
  | disjunction | rightSides => cases hplain
  | _ => exact .leaf rfl

/-! ### Patterns and their left sides -/

theorem isCompared_child {c : Term} (h : isCompared p) (hc : c ∈ p.children) : isCompared c := by
  simp only [isCompared, Bool.and_eq_true, Bool.not_eq_true'] at h ⊢
  obtain ⟨⟨hground, hrewrite⟩, hdisjunction⟩ := h
  refine ⟨⟨Term.isGround_child hground hc, Term.hasRewrite_child hrewrite hc⟩, ?_⟩
  rw [Term.hasDisjunction, Term.anyNode_eq, Bool.or_eq_false_iff, Bool.or_eq_false_iff] at hdisjunction
  exact Bool.not_eq_true _ ▸ List.any_eq_false.mp hdisjunction.1.2 c hc

theorem upTo_comparing {n : Nat} (hp : isCompared p) (hn : p.size ≤ n) : upTo deeper n p = comparing p := by
  cases n with
  | zero =>
    have := p.size_pos
    omega
  | succ n => exact funext fun s => funext fun st => node_compares hp s st

/-- A node whose left side is only compared is matched part by part to the same effect. -/
theorem node_comparing (hlook : L.LooksThrough t) (hmarked : t.hasRewrite) (hr : t.isRewrite = false)
    (h : LeftOf t u) (hu : isCompared u) (hagree : NodesAgree L.FitsAll go comparing t.node u.node)
    (hs : L.FitsAll s) (st : MatchState) : node go deeper t s st = comparing u s st := by
  have hground : u.isGround := isGround_of_isCompared hu
  have hleft : t.rawLeft.isGround := Term.isGround_congr h.beq ▸ hground
  have hnode := (Term.everyNode_iff.mp hlook.2).1
  have hplain := (Term.everyNode_iff.mp hlook.1.2).1
  rw [hmarked, Bool.not_true, Bool.false_or] at hnode hplain
  have hhead : t.node.head = u.node.head := by
    rw [Term.head_of_beq h.beq, Term.rawLeft_of_not_rewrite hr, Node.head_mapChildren]
  have halike := Node.Alike.of_head hhead
  have ht := isCompared_of_hasRewrite hmarked
  obtain ⟨hfits, hparts, -⟩ := Term.everyNode_iff.mp hs
  obtain ⟨c, hc, -⟩ := Term.exists_hasRewrite hmarked hr
  rw [Term.children] at hc
  unfold Labelling.looksThrough at hnode
  unfold Term.hasPlainLeft at hplain
  unfold Term.isRewrite at hr
  simp only [hleft, Bool.not_true, Bool.or_false, Bool.false_and] at hnode
  generalize hm : t.node = m, hn : u.node = n at halike
  rw [hm] at hnode hplain hr hc
  cases halike with
  | app =>
    have hfits' : L.fits u.node := by
      rw [hn]
      exact hnode
    exact node_const_comparing hparts ht hagree hn hfits' hfits st
  | freezer =>
    have hfits' : L.fits u.node := by
      rw [hn]
      exact hnode
    exact node_freezer_comparing hparts ht hagree hn hfits' hfits st
  | @seq items items' frame =>
    obtain rfl := Term.frame_of_isGround hground hn
    have hseq : t.rawLeft.node = .seq (items.map Term.rawLeft) none := by
      rw [Term.rawLeft_of_not_rewrite (by rw [Term.isRewrite, hm]), hm]
      rfl
    have hlength : items'.length ≠ 1 := by
      intro hone
      have hsettled := (Term.everyNode_iff.mp hlook.1.1).1
      have hitems := ((Term.beq_seq_iff hn hseq).mp h.beq).2
      have hlen := (Term.equal_iff_beq.mpr hitems).length_eq
      rw [Term.isSettled, hseq, Bool.and_eq_true] at hsettled
      have hnormal := hsettled.2
      simp [SequenceParts.isSettled, SequenceParts.isProper, SequenceParts.isNormal, ← hlen, hone] at hnormal
    refine node_seq_comparing hparts ht hagree hs hn hlength (fun c hc => ?_) st
    refine SequenceParts.segment?_of_not_var fun v => Term.not_isVar_of_isGround (Term.isGround_child hground ?_)
    rw [Term.children, hn]
    exact hc
  | list | map | set | cells => cases hnode
  | rewrite => cases hr
  | disjunction | rightSides => cases hplain
  | _ => cases hc

/-- Where there are no rewrites below the top it does not matter which subjects there are. -/
theorem findsSame_whole (h : LeftOf t u) (ht : t.hasRewrite = false ∨ t.isRewrite) :
    FindsSame (fun _ => True) t u := by
  cases h with
  | kept _ hu => exact findsSame_of_node hu
  | side hn _ hu => exact findsSame_side hn hu
  | made hmarked hr => simp [hmarked, hr] at ht

/-- A node above rewrites finds what its left side finds if the parts of it do, and runs in lists item by
item. -/
theorem findsSame_made (hlook : L.LooksThrough t) (hmarked : t.hasRewrite) (hr : t.isRewrite = false)
    (hhead : t.node.head = u.node.head) (hc : List.Forall₂ LeftOf t.children u.children)
    (hkept : t.node.isKeyed →
      List.Forall₂ (fun c d => c.hasRewrite = false → d = c) t.children u.children)
    (hparts : ∀ c ∈ t.children, ∀ d, LeftOf c d → FindsSame L.FitsAll c d ∧
      (c.isRewrite = false → ∀ c' ∈ c.children, ∀ d' ∈ d.children, LeftOf c' d' →
        FindsSame L.FitsAll c' d')) : FindsSame L.FitsAll t u := by
  have hplain := (Term.everyNode_iff.mp hlook.1.2).1
  have hnode := (Term.everyNode_iff.mp hlook.2).1
  rw [hmarked, Bool.not_true, Bool.false_or] at hnode hplain
  intro deeper n m hn hm s hs st
  obtain ⟨n, rfl⟩ : ∃ k, n = k + 1 := ⟨n - 1, by have := t.size_pos; omega⟩
  obtain ⟨m, rfl⟩ : ∃ k, m = k + 1 := ⟨m - 1, by have := u.size_pos; omega⟩
  have hsize {c : Term} (hc : c ∈ t.children) : c.size ≤ n := by have := Term.size_child hc; omega
  have hsize' {d : Term} (hd : d ∈ u.children) : d.size ≤ m := by have := Term.size_child hd; omega
  have hnodes {go' : Matcher} (hgo : ∀ d ∈ u.children, go' d = upTo deeper m d ∧
      ∀ d' ∈ d.children, go' d' = upTo deeper m d') :
      NodesAgree L.FitsAll (upTo deeper n) go' t.node u.node := by
    refine nodesAgree_of_leftOf hr hplain hnode hhead hc hkept (fun c hc d hd hcd => ?_)
      (fun c hc d hd hcd h => ?_) fun b hb b' hb' hbb' hbr c hc d hd hcd => ?_
    · rw [Agree, (hgo d hd).1]
      exact (hparts c hc d hcd).1 deeper n m (hsize hc) (hsize' hd)
    · rw [Agree, (hgo d hd).1]
      exact findsSame_whole hcd h deeper n m (hsize hc) (hsize' hd)
    · have hcn := Nat.le_trans (Nat.le_of_lt (Term.size_child hc)) (hsize hb)
      have hdm := Nat.le_trans (Nat.le_of_lt (Term.size_child hd)) (hsize' hb')
      rw [Agree, (hgo b' hb').2 d hd]
      exact (hparts b hb b' hbb').2 hbr c hc d hd hcd deeper n m hcn hdm
  cases hu : isCompared u with
  | false =>
    exact node_congr (Term.everyNode_iff.mp hs).2.1 hs (isCompared_of_hasRewrite hmarked) hu
      (hnodes fun _ _ => ⟨rfl, fun _ _ => rfl⟩) st
  | true =>
    -- the left side is compared as a whole, and so is every part of it
    rw [upTo_comparing hu hm]
    refine node_comparing hlook hmarked hr (.made hmarked hr hhead hc hkept) hu (hnodes fun d hd => ?_) hs st
    have hcompared := isCompared_child hu hd
    refine ⟨(upTo_comparing hcompared (hsize' hd)).symm, fun d' hd' => ?_⟩
    have hle := Nat.le_trans (Nat.le_of_lt (Term.size_child hd')) (hsize' hd)
    exact (upTo_comparing (isCompared_child hcompared hd') hle).symm

/-- A pattern finds what any term finds that is its left side, and so do their parts. -/
theorem findsSame_of_leftOf (t : Term) : L.LooksThrough t → ∀ u, LeftOf t u → FindsSame L.FitsAll t u ∧
    (t.isRewrite = false →
      ∀ c ∈ t.children, ∀ d ∈ u.children, LeftOf c d → FindsSame L.FitsAll c d) := by
  induction t using Term.induction with
  | h t ih =>
    intro hlook u htu
    have hparts (hr : t.isRewrite = false) (c : Term) (hc : c ∈ t.children) : ∀ d, LeftOf c d → _ :=
      ih c hc ⟨hlook.1.child hr hc, (Term.everyNode_iff.mp hlook.2).2.1 c hc⟩
    refine ⟨?_, fun hr c hc d _ hcd => (hparts hr c hc d hcd).1⟩
    have hwhole (ht : t.hasRewrite = false ∨ t.isRewrite) : FindsSame L.FitsAll t u :=
      fun deeper n m hn hm => (findsSame_whole htu ht deeper n m hn hm).of_true
    cases htu with
    | kept h => exact hwhole (.inl h)
    | side hn => exact hwhole (.inr (by rw [Term.isRewrite, hn]))
    | made hmarked hr hhead hc hkept => exact findsSame_made hlook hmarked hr hhead hc hkept (hparts hr)

/-- The left side of a pattern with rewrites is always made, and a match of it takes the same steps. -/
theorem matchAll_leftSide {N n : Nat} (hp : L.LooksThrough p) (hheap : IsHeap N [p]) (hn : N ≤ n) :
    Gives n (fun _ q => ∀ s, L.FitsAll s → matchAll p s = matchAll q s) p.leftSide :=
  (gives_leftSide p hp.1 hheap n hn).mono fun _ q _ hq s hs => by
    have hsame := (findsSame_of_leftOf p hp q hq.leftOf).1
    have hfrom : matchFrom p s {} = matchFrom q s {} := by
      rw [matchFrom, matchFrom]
      cases s.size with
      | zero => rfl
      | succ k => exact hsame (below k) p.size q.size (Nat.le_refl _) (Nat.le_refl _) s hs {}
    rw [matchAll, matchAll, hfrom]

/-- The constant `a` where it becomes `b`. -/
def becomes (id : Nat) : Term := ⟨⟨id, false⟩, .rewrite (.constant "a") (.constant "b")⟩

/-- Rewrites of an argument, of an item and the rest of a list, of an item of a sequence and of a value. -/
def manyRewrites : Term :=
  let var (id : Nat) (s : SortName) : Term := ⟨⟨id, false⟩, .var ⟨"X", s, id⟩⟩
  let call : Term := ⟨⟨1, false⟩, .app (.const "f") [becomes 12, var 2 .kItem] .kItem⟩
  let log : Term := ⟨⟨6, false⟩, .list .list [becomes 3] [⟨⟨5, false⟩, .rewrite (var 4 .list) .dotK⟩] []⟩
  let store : Term := ⟨⟨9, false⟩, .map .map [(.constant "k", becomes 7)] [var 8 .map]⟩
  let program : Term := ⟨⟨11, false⟩, .seq [call, becomes 10] (some ⟨"Rest", .k, 0⟩)⟩
  ⟨⟨13, false⟩, .cells [⟨"k", .one, program⟩, ⟨"log", .one, log⟩, ⟨"store", .one, store⟩] []⟩

/-- A configuration that the rewrites apply to. -/
def rewritable : Term :=
  let a : Term := .constant "a"
  let call : Term := ⟨⟨14, false⟩, .app (.const "f") [a, .constant "c"] .kItem⟩
  let log : Term := ⟨⟨15, false⟩, .list .list [a, a] [] []⟩
  let store : Term := ⟨⟨16, false⟩, .map .map [(.constant "k", a)] []⟩
  let program : Term := ⟨⟨17, false⟩, .seq [call, a] none⟩
  ⟨⟨18, false⟩, .cells [⟨"k", .one, program⟩, ⟨"log", .one, log⟩, ⟨"store", .one, store⟩] []⟩

theorem isHeap_manyRewrites : IsHeap 19 [manyRewrites] :=
  .of_nodes Term.mem_subterms_of_isNode (by decide) (by decide) (by decide)

/-- The labelling of a language whose only lists are the predefined ones. -/
def oneSort : Labelling := ⟨fun l => if l = ".List" then .list else .kItem, .kItem, fun _ => .one⟩

theorem matchAll_manyRewrites : oneSort.LooksThrough manyRewrites ∧ oneSort.FitsAll rewritable ∧
    ((matchAll manyRewrites rewritable).result? 19).any (·.length == 1) ∧
      Gives 19 (fun _ q => matchAll manyRewrites rewritable = matchAll q rewritable)
        manyRewrites.leftSide := by
  have hlook : oneSort.LooksThrough manyRewrites := by decide
  have hsubject : oneSort.FitsAll rewritable := by decide
  exact ⟨hlook, hsubject, by decide,
    (matchAll_leftSide hlook isHeap_manyRewrites (Nat.le_refl 19)).mono fun _ _ _ h =>
      h rewritable hsubject⟩

/-- A set with a rewrite of its only element, and the set of what is rewritten. -/
def rewrittenElement : Build (Term × Term) := do
  let set (e : Term) : Build Term := SetParts.build { ops := .set, elements := [e] }
  return (← set (← Term.rewrite (.int 1) (.int 2)), ← set (.int 1))

set_option maxRecDepth 100000

/-- A rewrite among the elements of a set is not matched by its left side. -/
theorem exists_match_lost : ∃ (p l s : Term) (σ : Substitution), rewrittenElement.result? 1 = some (p, s) ∧
    s.isGround ∧ p.leftSide.result? 100 = some l ∧ (matchAll p s).result? 200 = some [] ∧
      (matchAll l s).result? 200 = some [σ] := by
  have h : (rewrittenElement.result? 1).any (fun e => e.2.isGround &&
      (e.1.leftSide.result? 100).any fun l => ((matchAll e.1 e.2).result? 200).any (·.isEmpty) &&
        (((matchAll l e.2).result? 200).bind single?).isSome) = true := by
    decide
  obtain ⟨⟨p, s⟩, he, h⟩ := (Option.any_eq_true ..).mp h
  obtain ⟨hground, h⟩ := (Bool.and_eq_true _ _).mp h
  obtain ⟨l, hl, h⟩ := (Option.any_eq_true ..).mp h
  obtain ⟨hnone, hone⟩ := (Bool.and_eq_true _ _).mp h
  obtain ⟨σs, hσs, hempty⟩ := (Option.any_eq_true ..).mp hnone
  obtain ⟨σ, hσ⟩ := Option.isSome_iff_exists.mp hone
  exact ⟨p, l, s, σ, he, hground, hl, by rw [hσs, List.isEmpty_iff.mp hempty], eq_of_bind_single? hσ⟩

end Matching

end RuleCompiler
