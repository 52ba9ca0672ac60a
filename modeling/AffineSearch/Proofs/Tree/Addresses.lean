import AffineSearch.Proofs.Tree.Paths
import Mathlib.Data.List.Infix

/-! Nodes by their addresses. An address says which child to go to on each level. In lexicographic order
a node comes before those below it, and these come before its neighbours on the right. -/
namespace AffineSearch.Node

/-- The node at an address, if there is one. -/
def subtree? (n : Node) : List Nat → Option Node
  | [] => some n
  | i :: rest => n.children[i]?.bind (·.subtree? rest)

/-- The labels of the nodes on the way to an address, from this node on. -/
def labelsTo (n : Node) (address : List Nat) : List Step :=
  address.inits.filterMap fun way => (n.subtree? way).bind label

def isGoalAt (n : Node) (address : List Nat) : Bool := (n.subtree? address).any isGoal

mutual

/-- The addresses of all nodes, each before those below it. -/
def addresses : Node → List (List Nat)
  | ⟨_, _, _, children⟩ => [] :: addressesFrom 0 children

/-- The addresses of all nodes at and below some neighbours, of which the first is child `i`. -/
def addressesFrom (i : Nat) : List Node → List (List Nat)
  | [] => []
  | n :: rest => n.addresses.map (i :: ·) ++ addressesFrom (i + 1) rest

end

variable {n c : Node} {i : Nat}

theorem subtree?_cons (h : n.children[i]? = some c) (rest : List Nat) :
    n.subtree? (i :: rest) = c.subtree? rest := by
  rw [subtree?, h, Option.bind_some]

theorem isGoalAt_cons (h : n.children[i]? = some c) (rest : List Nat) :
    n.isGoalAt (i :: rest) = c.isGoalAt rest := by
  rw [isGoalAt, isGoalAt, subtree?_cons h]

theorem labelsTo_nil (n : Node) : n.labelsTo [] = n.label.toList := by
  cases h : n.label <;> simp [labelsTo, subtree?, h]

theorem labelsTo_cons (h : n.children[i]? = some c) (rest : List Nat) :
    n.labelsTo (i :: rest) = n.label.toList ++ c.labelsTo rest := by
  have hself : (n.subtree? []).bind label = n.label := rfl
  have hbelow : (fun way => (n.subtree? way).bind label) ∘ (i :: ·) =
      fun way => (c.subtree? way).bind label := by
    funext way
    rw [Function.comp_apply, subtree?_cons h]
  unfold labelsTo
  rw [List.inits_cons, List.filterMap_cons, hself, List.filterMap_map, hbelow]
  cases n.label <;> rfl

theorem addressesFrom_eq (ns : List Node) (i : Nat) :
    addressesFrom i ns = (ns.zipIdx i).flatMap fun p => p.1.addresses.map (p.2 :: ·) := by
  induction ns generalizing i with
  | nil => rfl
  | cons n ns ih => rw [addressesFrom, ih, List.zipIdx_cons, List.flatMap_cons]

theorem addresses_eq (n : Node) :
    n.addresses = [] :: n.children.zipIdx.flatMap fun p => p.1.addresses.map (p.2 :: ·) := by
  obtain ⟨label, isGoal, isErased, children⟩ := n
  rw [addresses, addressesFrom_eq]

theorem exists_addresses_eq (n : Node) :
    ∃ below, n.addresses = [] :: below ∧ ∀ address ∈ below, address ≠ [] := by
  refine ⟨_, addresses_eq n, ?_⟩
  intro address h
  obtain ⟨p, -, h⟩ := List.mem_flatMap.mp h
  obtain ⟨rest, -, rfl⟩ := List.mem_map.mp h
  exact List.cons_ne_nil _ _

theorem mem_addresses {address : List Nat} :
    address ∈ n.addresses ↔ (n.subtree? address).isSome = true := by
  induction address generalizing n with
  | nil => simp [addresses_eq n, subtree?]
  | cons i rest ih =>
    have hmem : i :: rest ∈ n.addresses ↔ ∃ c, n.children[i]? = some c ∧ rest ∈ c.addresses := by
      simp [addresses_eq n, List.mem_zipIdx_iff_getElem?]
    rw [hmem, subtree?]
    cases h : n.children[i]? with
    | none => simp
    | some c => simp [ih]

theorem zipIdx_pairwise_lt (ns : List Node) : ns.zipIdx.Pairwise fun p q => p.2 < q.2 := by
  have hsnd : (ns.zipIdx.map (·.2)).Pairwise (· < ·) := by
    rw [List.zipIdx_map_snd]
    exact List.pairwise_lt_range'
  exact List.pairwise_map.mp hsnd

theorem addresses_pairwise_lex (n : Node) : n.addresses.Pairwise (List.Lex (· < ·)) := by
  induction n using induction_children with
  | node n ih =>
    rw [addresses_eq, List.pairwise_cons, List.pairwise_flatMap]
    refine ⟨?_, ?_, ?_⟩
    · intro address h
      obtain ⟨p, -, h⟩ := List.mem_flatMap.mp h
      obtain ⟨rest, -, rfl⟩ := List.mem_map.mp h
      exact .nil
    · intro p hp
      have hc : p.1 ∈ n.children := List.mem_of_getElem? (List.mem_zipIdx_iff_getElem?.mp hp)
      rw [List.pairwise_map]
      exact (ih p.1 hc).imp .cons
    · apply (zipIdx_pairwise_lt n.children).imp
      intro p q hpq a ha b hb
      obtain ⟨_, -, rfl⟩ := List.mem_map.mp ha
      obtain ⟨_, -, rfl⟩ := List.mem_map.mp hb
      exact .rel hpq

mutual

theorem length_addresses : (n : Node) → n.addresses.length = n.numNodes
  | ⟨label, isGoal, isErased, children⟩ => by
    rw [addresses, numNodes, List.length_cons, length_addressesFrom 0 children, Nat.add_comm]

theorem length_addressesFrom (i : Nat) : (ns : List Node) → (addressesFrom i ns).length = numNodesIn ns
  | [] => rfl
  | n :: rest => by
    rw [addressesFrom, numNodesIn, List.length_append, List.length_map, length_addresses n,
      length_addressesFrom (i + 1) rest]

end

end AffineSearch.Node
