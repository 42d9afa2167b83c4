import RuleCompiler.Proofs.Coupling.Walk
import RuleCompiler.Proofs.World

/-! # What holds of every node

A run beside itself: what holds of the nodes that it begins with and of every node that it makes holds of all nodes
of the terms that it gives. -/

namespace RuleCompiler

/-- A property of nodes, by the number that the next one has, that holds of the nodes made since `base`. -/
structure NodeInvariant (base : Nat) (Q : Nat → Term → Prop) : Prop where
  mono {n m : Nat} {t : Term} (hm : n ≤ m) (h : Q n t) : Q m t
  canonical {n : Nat} {m : Node Term} (hm : m.isCanonical) : Q n (Term.canonical m)
  made {n : Nat} {m : Node Term} (hn : base ≤ n) (hm : m.isCanonical = false)
    (h : ∀ c ∈ m.children, ∀ d ∈ c.nodes, Q n d) : Q (n + 1) ⟨{ id := n }, m⟩
  editable {n : Nat} {t : Term} (hc : t.isCanonical = false) (hid : base ≤ t.mark.id) (h : Q n t) :
    Q n (t.withEditable true)

open Term (forall_mem_nodes)

namespace NodeInvariant
variable {base n m : Nat} {Q : Nat → Term → Prop} {t u : Term}

/-- The same term, all of whose nodes have the property. -/
def Holds (Q : Nat → Term → Prop) (n : Nat) (t u : Term) : Prop := t = u ∧ ∀ d ∈ t.nodes, Q n d

theorem Holds.alike (h : Holds Q n t u) : Node.Alike (Holds Q n) t.node u.node := by
  obtain ⟨rfl, h⟩ := h
  refine ((Term.alike_of_beq BEq.rfl).imp fun _ _ _ => trivial).of_children (List.forall₂_same.mpr fun c hc => ?_)
  exact ⟨rfl, (forall_mem_nodes.mp h).2 c hc⟩

theorem Holds.of_alike {a b : Node Term} (hab : Node.Alike (Holds Q n) a b) :
    a = b ∧ ∀ c ∈ a.children, ∀ d ∈ c.nodes, Q n d := by
  refine ⟨(hab.imp fun _ _ h => h.1).eq, fun c hc => ?_⟩
  obtain ⟨d, _, hcd⟩ := PairedLists.exists_mem hab.children hc
  exact hcd.2

/-- A run beside itself, with a property of nodes. -/
def coupling (hQ : NodeInvariant base Q) (allowance : Allowance) : Coupling :=
  .ofRel base 0 allowance (Holds Q) (fun hm h => ⟨h.1, fun d hd => hQ.mono hm (h.2 d hd)⟩) (fun h => h.1 ▸ BEq.rfl)
    Holds.alike
    (fun hm h => by
      obtain ⟨rfl, hc⟩ := Holds.of_alike h
      exact ⟨rfl, forall_mem_nodes.mpr ⟨hQ.canonical hm, hc⟩⟩)
    (fun hn hm h => by
      obtain ⟨rfl, hc⟩ := Holds.of_alike h
      exact ⟨rfl, forall_mem_nodes.mpr ⟨hQ.made hn hm hc, fun c hc' d hd => hQ.mono (Nat.le_succ _) (hc c hc' d hd)⟩⟩)
    (fun h h' => by rw [h.1, h'.1]) (fun h => by rw [h.1])
    (fun {n start t u} hs h => by
      obtain ⟨rfl, h⟩ := h
      refine ⟨rfl, ?_⟩
      rcases t.makeEditable_cases start with heq | ⟨hc, hid, heq⟩
      · rwa [heq]
      · obtain ⟨ht, hbelow⟩ := forall_mem_nodes.mp h
        rw [heq]
        exact forall_mem_nodes.mpr ⟨hQ.editable hc (Nat.le_trans hs hid) ht, hbelow⟩)

end NodeInvariant

end RuleCompiler
