import RuleCompiler.Proofs.Index.Sides
import RuleCompiler.Proofs.Sharing.Unshare

/-! # Left sides

What becomes of the nodes of a term when its rewrites are replaced by their left sides. Where the
builders have nothing to put in order the nodes above rewrites keep their shape, and those without
rewrites stay the nodes they are. -/

namespace RuleCompiler

open Build (Gives)

/-! ### Nodes with other children -/

open Term (refill pairUp) in
/-- The node with other children, in the order of `children`, and nothing put in order. -/
def Node.withChildren : Node Term → List Term → Node Term
  | .app (.const l) _ s, cs => .app (.const l) cs s
  | .app (.freezer _) _ s, c :: cs => .app (.freezer c) cs s
  | .seq _ frame, cs => .seq cs frame
  | .list ops left base _, cs =>
    let rest := cs.drop left.length
    .list ops (cs.take left.length) (rest.take base.length) (rest.drop base.length)
  | .map ops entries _, cs =>
    .map ops (pairUp (cs.take (2 * entries.length))) (cs.drop (2 * entries.length))
  | .set ops elements _, cs => .set ops (cs.take elements.length) (cs.drop elements.length)
  | .cells parts frames, cs =>
    .cells (parts.zipWith (fun cell content => { cell with content }) cs) frames
  | .rewrite .., [l, r] => .rewrite l r
  | .disjunction branches, cs => .disjunction (branches.zipWith (fun b c => (c, b.2)) cs)
  | .rightSides byRule, cs => .rightSides (refill byRule cs)
  | n, _ => n

theorem Term.refill_map (f : Term → Term) (ts : List (Option Term)) :
    refill ts ((ts.filterMap id).map f) = ts.map (Option.map f) := by
  induction ts with
  | nil => rfl
  | cons o ts ih =>
    cases o with
    | none => simpa [refill] using ih
    | some c => simpa [refill] using ih

theorem Node.withChildren_map (n : Node Term) (f : Term → Term) :
    n.withChildren (n.children.map f) = n.mapChildren f := by
  cases n with
  | app label args s => cases label <;> rfl
  | list ops left base right =>
    simp only [withChildren, children, mapChildren, List.map_append]
    rw [List.take_left' (List.length_map f), List.drop_left' (List.length_map f),
      List.take_left' (List.length_map f), List.drop_left' (List.length_map f)]
  | map ops es base =>
    have hentries : (es.flatMap fun e => [e.1, e.2]).map f =
        (es.map fun e => (f e.1, f e.2)).flatMap fun e => [e.1, e.2] := by
      simp [List.map_flatMap, List.flatMap_map]
    have hlen := MapParts.length_flatMap (es.map fun e => (f e.1, f e.2))
    rw [List.length_map] at hlen
    simp only [withChildren, children, mapChildren, List.map_append, hentries]
    rw [List.take_left' hlen, List.drop_left' hlen, MapParts.pairUp_flatMap]
  | set ops es base =>
    simp only [withChildren, children, mapChildren, List.map_append]
    rw [List.take_left' (List.length_map f), List.drop_left' (List.length_map f)]
  | cells cs frames =>
    simp only [withChildren, children, mapChildren, List.map_map, List.zipWith_map_right]
    exact congrArg (Node.cells · frames) List.zipWith_self
  | disjunction bs =>
    simp only [withChildren, children, mapChildren, List.map_map, List.zipWith_map_right]
    exact congrArg Node.disjunction List.zipWith_self
  | rightSides ts => simp only [withChildren, children, mapChildren, Term.refill_map]
  | _ => rfl

namespace Term

/-- Every rewrite replaced by its left side, and nothing put in order. -/
def rawLeft : Term → Term :=
  fold fun t below => match t.node, below with
    | .rewrite .., [l, _] => l
    | n, below => ⟨t.mark, n.withChildren below⟩

variable {t u : Term}

theorem rawLeft_eq (t : Term) : t.rawLeft = match t.node with
    | .rewrite l _ => l.rawLeft
    | n => ⟨t.mark, n.mapChildren rawLeft⟩ := by
  rw [rawLeft, fold_eq, ← rawLeft, children]
  cases t.node with
  | rewrite => rfl
  | _ => exact congrArg (Term.mk t.mark) (Node.withChildren_map _ _)

theorem rawLeft_of_rewrite {l r : Term} (hn : t.node = .rewrite l r) : t.rawLeft = l.rawLeft := by
  rw [rawLeft_eq, hn]

theorem rawLeft_of_not_rewrite (h : t.isRewrite = false) :
    t.rawLeft = ⟨t.mark, t.node.mapChildren rawLeft⟩ := by
  rw [rawLeft_eq]
  split
  · rename_i hn
    rw [isRewrite, hn] at h
    cases h
  · rfl

theorem children_rawLeft (h : t.isRewrite = false) : t.rawLeft.children = t.children.map rawLeft := by
  rw [rawLeft_of_not_rewrite h, children, Node.children_mapChildren]
  rfl

theorem rawLeft_self (h : t.hasRewrite = false) : t.rawLeft = t := by
  induction t using Term.induction with
  | h t ih =>
    have hchildren : t.node.children.map rawLeft = t.node.children :=
      (List.map_congr_left fun c hc => ih c hc (hasRewrite_child h hc)).trans (List.map_id _)
    rw [rawLeft_of_not_rewrite (isRewrite_of_hasRewrite h)]
    have hnode : t.node.mapChildren rawLeft = t.node :=
      Node.eq_of_head_children (Node.head_mapChildren _ _)
        ((Node.children_mapChildren _ _).trans hchildren)
    rw [hnode]
    cases t
    rfl

theorem head_of_beq (h : t == u) : t.node.head = u.node.head := (code_eq_iff.mp (beq_iff.mp h)).1

/-! ### Terms and their left sides -/

end Term

/-- Whether the node tells its children apart by keys or as elements. -/
def Node.isKeyed {α : Type} : Node α → Bool
  | .map .. | .set .. => true
  | _ => false

namespace Term

/-- The term `u` is `t` with rewrites replaced by their left sides, whichever nodes it is made of: but
below keyed nodes whatever has no rewrite is the node it was. -/
inductive LeftOf : Term → Term → Prop where
  | kept {t u : Term} (h : t.hasRewrite = false) (hu : u.node = t.node) : LeftOf t u
  | side {t u l r : Term} (hn : t.node = .rewrite l r) (hl : l.hasRewrite = false)
      (hu : u.node = l.node) : LeftOf t u
  | made {t u : Term} (h : t.hasRewrite) (hr : t.isRewrite = false) (hhead : t.node.head = u.node.head)
      (hc : List.Forall₂ LeftOf t.children u.children)
      (hkept : t.node.isKeyed →
        List.Forall₂ (fun c d => c.hasRewrite = false → d = c) t.children u.children) : LeftOf t u

variable {t u v : Term}

theorem LeftOf.of_node (h : LeftOf t u) (hv : v.node = u.node) : LeftOf t v := by
  cases h with
  | kept h hu => exact .kept h (hv.trans hu)
  | side hn hl hu => exact .side hn hl (hv.trans hu)
  | made h hr hhead hc hkept =>
    rw [children] at hc
    refine .made h hr (hv ▸ hhead) ?_ ?_
    · rwa [children, children, hv]
    · rwa [children, children, hv]

theorem LeftOf.beq (h : LeftOf t u) : u == t.rawLeft := by
  induction t using Term.induction generalizing u with
  | h t ih =>
    cases h with
    | kept h hu =>
      rw [rawLeft_self h]
      exact beq_of_node_eq hu
    | side hn hl hu =>
      rw [rawLeft_of_rewrite hn, rawLeft_self hl]
      exact beq_of_node_eq hu
    | made h hr hhead hc _ =>
      rw [rawLeft_of_not_rewrite hr]
      refine beq_of_alike (Node.alike_of_head ?_ ?_)
      · rw [Node.head_mapChildren, hhead]
      · rw [Node.children_mapChildren, List.forall₂_map_right_iff]
        exact (PairedLists.imp_mem hc fun c hm d _ h => ih c hm h).flip

/-- Whether nothing stands in the way of replacing rewrites below the node: they are not nested, and the
node neither stands for several terms nor for its only item. -/
def hasPlainLeft (t : Term) : Bool :=
  match t.node with
  | .rewrite l _ => !l.hasRewrite
  | n => !n.isChoice && !t.rawLeft.isLone

/-- Whether the left side has nothing to be put in order. -/
def HasPlainLeft (t : Term) : Prop :=
  t.rawLeft.everyNode isSettled ∧ t.everyNode fun u => !u.hasRewrite || u.hasPlainLeft

instance (t : Term) : Decidable t.HasPlainLeft := inferInstanceAs (Decidable (_ ∧ _))

theorem HasPlainLeft.child {c : Term} (h : t.HasPlainLeft) (hr : t.isRewrite = false) (hc : c ∈ t.children) :
    c.HasPlainLeft :=
  ⟨(everyNode_iff.mp h.1).2.1 _ (children_rawLeft hr ▸ List.mem_map_of_mem hc), (everyNode_iff.mp h.2).2.1 c hc⟩

/-- What the left side of a term is, as nodes. -/
structure IsLeft (t u : Term) : Prop where
  leftOf : LeftOf t u
  isEditable : u.isEditable = t.rawLeft.isEditable
  eq_self : t.hasRewrite = false → u = t
  moved : t.hasRewrite → t.same u = false

/-! ### Making left sides -/

variable {us ds fs : List Term} {N n k : Nat}

theorem isLeft_self (h : t.hasRewrite = false) : IsLeft t t where
  leftOf := .kept h rfl
  isEditable := by rw [rawLeft_self h]
  eq_self _ := rfl
  moved h' := by
    rw [h] at h'
    cases h'

theorem leftSide_of_not_rewrite (h : t.isRewrite = false) :
    t.leftSide = t.update (t.children.map leftSide) pure := by
  rw [leftSide_eq]
  split
  · rename_i hn
    rw [isRewrite, hn] at h
    cases h
  · rfl

theorem gives_leftSide_self (h : t.hasRewrite = false) (n : Nat) :
    Gives n (fun _ u => u = t) t.leftSide := by
  induction t using Term.induction generalizing n with
  | h t ih =>
    rw [leftSide_of_not_rewrite (isRewrite_of_hasRewrite h), update_pure_eq]
    refine Gives.bind (p := fun _ _ => True) ⟨n, n, rfl, Nat.le_refl n, trivial⟩ fun k start _ _ => ?_
    have hchildren : Gives k (fun _ us => List.Forall₂ (fun u c => u = c) us t.children)
        (t.children.mapM leftSide) :=
      Gives.mapM (S := Eq) (R := fun _ u c => u = c) (fun _ h => h) (List.forall₂_same.mpr fun _ _ => rfl)
        fun c hc _ hcd m _ => hcd ▸ ih c hc (hasRewrite_child h hc) m
    refine hchildren.bind fun m us _ hus => ?_
    rw [List.forall₂_eq_eq_eq] at hus
    rw [hus]
    exact gives_settle_same t start m

/-- A map or a set is one new node. -/
theorem rebuild_keyed (hn : t.node.isKeyed) {m : Nat} (hrun : t.rebuild us fs k = (.ok u, m)) :
    m ≤ k + 1 := by
  have hnew {n : Node Term} (h : new n k = (.ok u, m)) : m ≤ k + 1 := by
    unfold new at h
    split at h
    · cases h
      exact Nat.le_succ k
    · cases h
      exact Nat.le_refl (k + 1)
  have hbuilt {x : Build Term} (hx : (∃ v, x = pure v) ∨ ∃ n, x = new n) (h : x k = (.ok u, m)) : m ≤ k + 1 := by
    rcases hx with ⟨v, rfl⟩ | ⟨n, rfl⟩
    · cases h
      exact Nat.le_succ k
    · exact hnew h
  have hmap (p : MapParts) : (∃ v, p.build = pure v) ∨ ∃ n, p.build = new n := by
    unfold MapParts.build
    split
    · exact .inl ⟨_, rfl⟩
    · exact .inr ⟨_, rfl⟩
  have hset (p : SetParts) : (∃ v, p.build = pure v) ∨ ∃ n, p.build = new n := by
    unfold SetParts.build
    split
    · exact .inl ⟨_, rfl⟩
    · exact .inr ⟨_, rfl⟩
  unfold rebuild at hrun
  cases hm : t.node with
  | map ops es base =>
    rw [hm] at hrun
    exact hbuilt (hmap _) hrun
  | set ops es base =>
    rw [hm] at hrun
    exact hbuilt (hset _) hrun
  | _ =>
    rw [hm] at hn
    cases hn

theorem Redone.eq_of_le (h : Redone n k t u) (hk : k ≤ n) : u = t := by
  cases h with
  | kept => rfl
  | anew _ _ _ hfresh =>
    have hle := hfresh.le
    have hlt := hfresh.lt
    omega

/-- A node is made again from the left sides of its children with these for children, but for those
that are redone where nothing is told apart by them. -/
theorem gives_rebuild_left (ht : t.rawLeft.everyNode isSettled) (hr : t.isRewrite = false)
    (hplain : t.hasPlainLeft) (hne : t.children ≠ []) (hus : List.Forall₂ IsLeft t.children us)
    (hfs : List.Forall₂ (fun v f => f.node = .var v) t.frames fs) (k : Nat) :
    Gives k (fun k' v => (Fresh k k' v ∧ v.isEditable = false) ∧ ∀ u : Term, u.node = v.node →
      u.mark.id = v.mark.id → t.node.head = u.node.head ∧
        List.Forall₂ (fun d c => c.node = d.node ∧ (t.node.isKeyed → c = d)) us u.children)
      (t.rebuild us fs) := by
  have hraw := rawLeft_of_not_rewrite hr
  have hlone : t.rawLeft.isLone = false := by
    unfold hasPlainLeft at hplain
    split at hplain
    · rename_i hn
      rw [isRewrite, hn] at hr
      cases hr
    · simp only [Bool.and_eq_true, Bool.not_eq_true'] at hplain
      exact hplain.2
  have hchildren := children_rawLeft hr
  have hframes : t.rawLeft.frames = t.frames := by
    rw [hraw, frames, frames]
    cases t.node with
    | app label _ _ => cases label <;> rfl
    | _ => rfl
  have hrenews : List.Forall₂ Renews us t.rawLeft.children := by
    rw [hchildren, List.forall₂_map_right_iff]
    exact hus.flip.imp fun _ _ h => ⟨h.leftOf.beq, h.isEditable⟩
  have hrebuild := gives_rebuild ht hlone (by rw [hchildren]; simpa using hne) hrenews
    (List.forall₂_same.mpr fun _ _ => .child) (hframes ▸ hfs) k
  have halike : Node.Alike (fun c d => d = c.rawLeft) t.node t.rawLeft.node := by
    rw [hraw]
    refine Node.alike_of_head (Node.head_mapChildren _ _).symm ?_
    rw [Node.children_mapChildren, List.forall₂_map_right_iff]
    exact List.forall₂_same.mpr fun _ _ => rfl
  rcases rebuild_congr halike us fs with heq | ⟨-, hkept⟩
  · rw [heq]
    obtain ⟨v, k', hrun, hk, hfresh, hedit, hbeq, hredone⟩ := hrebuild
    refine ⟨v, k', hrun, hk, ⟨hfresh, hedit⟩, fun u hnode _ => ⟨?_, ?_⟩⟩
    · rw [hnode, head_of_beq hbeq, hraw, Node.head_mapChildren]
    · rw [children, hnode, ← children]
      refine hredone.imp fun d c h => ⟨h.node, fun hkeyed => h.eq_of_le ?_⟩
      have hle := rebuild_keyed hkeyed (heq.symm ▸ hrun)
      have hlt := hfresh.lt
      omega
  · rw [hkept] at hrebuild
    obtain ⟨v, k', hrun, -, hfresh, -⟩ := hrebuild
    cases hrun
    have hle := hfresh.le
    have hlt := hfresh.lt
    omega

/-- What has a changed part is not the same. -/
theorem allSame_of_moved {P : Term → Prop} {ts : List Term}
    (h : List.Forall₂ (fun t u => P t → t.same u = false) ts us) (hP : ∃ t ∈ ts, P t) :
    allSame ts us = false := by
  induction h with
  | nil => simp at hP
  | @cons t u ts us htu _ ih =>
    rw [allSame, List.zip_cons_cons, List.all_cons, Bool.and_eq_false_iff]
    obtain ⟨c, hc, hPc⟩ := hP
    rcases List.mem_cons.mp hc with rfl | hc
    · exact .inl (htu hPc)
    · exact .inr (ih ⟨c, hc, hPc⟩)

theorem hasRewrite_of_isRewrite (h : t.isRewrite) : t.hasRewrite := by
  rw [hasRewrite, anyNode_eq, h]
  rfl

theorem exists_hasRewrite (h : t.hasRewrite) (hr : t.isRewrite = false) : ∃ c ∈ t.children, c.hasRewrite := by
  rw [hasRewrite, anyNode_eq, hr, Bool.false_or, Bool.or_eq_true] at h
  rcases h with h | h
  · exact List.any_eq_true.mp h
  · obtain ⟨u, hu, h⟩ := List.any_eq_true.mp h
    obtain ⟨v, -, rfl⟩ := List.mem_map.mp hu
    cases h

theorem isCanonical_of_hasRewrite (h : t.hasRewrite) : t.isCanonical = false := by
  by_contra hc
  have hc : t.isCanonical := by simpa using hc
  have hr : t.isRewrite = false := by
    rw [isRewrite]
    unfold isCanonical Node.isCanonical at hc
    split <;> simp_all
  obtain ⟨c, hm, -⟩ := exists_hasRewrite h hr
  rw [children] at hm
  unfold isCanonical Node.isCanonical at hc
  split at hc <;> simp_all [Node.children]

/-- A rewrite is not its left side. -/
theorem same_left {l r : Term} (hheap : IsHeap N [t]) (hn : t.node = .rewrite l r) : t.same l = false := by
  have htc : t.isCanonical = false := by rw [isCanonical, hn]; rfl
  rw [same, htc, if_neg Bool.false_ne_true, Bool.and_eq_false_iff]
  cases hlc : l.isCanonical with
  | true => exact .inl rfl
  | false =>
    refine .inr (beq_eq_false_iff_ne.mpr fun hid => ?_)
    have hl : l ∈ t.children := by rw [children, hn]; exact List.mem_cons_self
    have heq := hheap.eq_of_id (isNode_single.mpr (.inl rfl)) (isNode_single.mpr (.inr (isNode_of_mem hl)))
      htc hlc hid
    exact absurd (congrArg size heq) (Nat.ne_of_gt (size_child hl))

/-- A node above rewrites is made again from the left sides of its children. -/
theorem gives_leftSide_made (hplain : t.HasPlainLeft) (hheap : IsHeap N [t]) (hmarked : t.hasRewrite)
    (hr : t.isRewrite = false) (hn : N ≤ n)
    (hchildren : ∀ c ∈ t.children, ∀ k, N ≤ k → Gives k (fun _ u => IsLeft c u) c.leftSide) :
    Gives n (fun _ u => IsLeft t u) t.leftSide := by
  have hnode := (everyNode_iff.mp hplain.2).1
  rw [hmarked, Bool.not_true, Bool.false_or] at hnode
  have hex := exists_hasRewrite hmarked hr
  have hne : t.children ≠ [] := fun h => by simp [h] at hex
  rw [leftSide_of_not_rewrite hr, update_pure_eq]
  refine Gives.bind (p := fun k start => start ≤ k) ⟨n, n, rfl, Nat.le_refl n, Nat.le_refl n⟩
    fun n' start hn' hstart => ?_
  have hmade : Gives n' (fun _ us => List.Forall₂ (fun u c => IsLeft c u) us t.children)
      (t.children.mapM leftSide) := by
    refine Gives.mapM (S := Eq) (R := fun _ u c => IsLeft c u) (fun _ h => h)
      (List.forall₂_same.mpr fun _ _ => rfl) ?_
    rintro c hc _ rfl k hk
    exact hchildren c hc k (Nat.le_trans hn (Nat.le_trans hn' hk))
  refine hmade.bind fun m us hm hus => ?_
  have hus := hus.flip
  have hmoved := allSame_of_moved (hus.imp fun _ _ h => h.moved) hex
  refine (gives_settle_made (Nat.le_trans hstart hm) hmoved fun k fs _ hfs =>
    gives_rebuild_left hplain.1 hr hnode hne hus hfs k).mono fun k u _ hu => ?_
  obtain ⟨hfresh, hedit, hhead, hnodes⟩ := hu
  refine ⟨.made hmarked hr hhead ?_ fun hkeyed => ?_, ?_, fun h => ?_, fun _ => ?_⟩
  · exact PairedLists.comp (fun _ _ _ h h' => h.leftOf.of_node h'.1) hus hnodes
  · exact PairedLists.comp (fun _ _ _ h h' hc => (h'.2 hkeyed).trans (h.eq_self hc)) hus hnodes
  · rw [hedit, rawLeft_of_not_rewrite hr]
    rfl
  · rw [hmarked] at h
    cases h
  · have htc := isCanonical_of_hasRewrite hmarked
    have hlt := hheap.id_lt (isNode_single.mpr (.inl rfl)) htc
    have hle := hfresh.le
    rw [same, htc, if_neg Bool.false_ne_true, Bool.and_eq_false_iff]
    exact .inr (beq_eq_false_iff_ne.mpr (by omega))

theorem gives_leftSide_rewrite {l r : Term} (hheap : IsHeap N [t]) (htn : t.node = .rewrite l r)
    (hl : l.hasRewrite = false) (n : Nat) : Gives n (fun _ u => IsLeft t u) t.leftSide := by
  rw [leftSide_eq, htn]
  refine (gives_leftSide_self hl n).mono fun _ u _ hu => ?_
  rw [hu]
  refine ⟨.side htn hl rfl, ?_, fun h => ?_, fun _ => same_left hheap htn⟩
  · rw [rawLeft_of_rewrite htn, rawLeft_self hl]
  · rw [hasRewrite_of_isRewrite (by rw [isRewrite, htn])] at h
    cases h

/-- Left sides with nothing to be put in order: always made, as the nodes that they should be. -/
theorem gives_leftSide (t : Term) : t.HasPlainLeft → IsHeap N [t] → ∀ n, N ≤ n →
    Gives n (fun _ u => IsLeft t u) t.leftSide := by
  induction t using Term.induction with
  | h t ih =>
    intro hplain hheap n hn
    cases hmarked : t.hasRewrite with
    | false =>
      refine (gives_leftSide_self hmarked n).mono fun _ u _ hu => ?_
      rw [hu]
      exact isLeft_self hmarked
    | true =>
      by_cases hrewrite : ∃ l r, t.node = .rewrite l r
      · obtain ⟨l, r, htn⟩ := hrewrite
        have hnode := (everyNode_iff.mp hplain.2).1
        rw [hmarked, Bool.not_true, Bool.false_or, hasPlainLeft, htn] at hnode
        exact gives_leftSide_rewrite hheap htn (by simpa using hnode) n
      · have hr : t.isRewrite = false := by
          unfold isRewrite
          split
          · exact absurd ⟨_, _, ‹_›⟩ hrewrite
          · rfl
        refine gives_leftSide_made hplain hheap hmarked hr hn fun c hc k hk => ?_
        exact ih c hc (hplain.child hr hc) (hheap.children.mono fun hd => (isNode_of_mem hc).trans hd) k hk

end Term

end RuleCompiler
