import CliMessaging.Model.Distributed.Network
import Mathlib.Combinatorics.SimpleGraph.Acyclic

/-! # Connected topologies and trees -/

namespace CliMessaging.Distributed

def Topology.Connected (T : Topology) : Prop :=
  ∀ s ∈ T.nodes, ∀ t ∈ T.nodes, Relation.ReflTransGen (fun a b => b ∈ T.adj a) s t

/-- The links of the network as an undirected graph. -/
def Topology.graph (T : Topology) : SimpleGraph Addressable where
  Adj s t := s ≠ t ∧ t ∈ T.adj s
  symm := ⟨fun s t h => ⟨h.1.symm, T.adj_symm s t h.2⟩⟩
  loopless := ⟨fun _ h => h.1 rfl⟩

structure Topology.IsTree (T : Topology) : Prop where
  noLoops : ∀ s, s ∉ T.adj s
  connected : T.Connected
  acyclic : T.graph.IsAcyclic

theorem Topology.IsTree.adj_iff {T : Topology} (h : T.IsTree) {s t : Addressable} :
    T.graph.Adj s t ↔ t ∈ T.adj s := by
  constructor
  · exact And.right
  · intro ht
    refine ⟨?_, ht⟩
    rintro rfl
    exact h.noLoops s ht

theorem Topology.IsTree.reachable {T : Topology} (h : T.IsTree) {s t : Addressable}
    (hs : s ∈ T.nodes) (ht : t ∈ T.nodes) : T.graph.Reachable s t := by
  have hpath := h.connected s hs t ht
  clear ht
  induction hpath with
  | refl => exact .refl s
  | tail _ hedge ih => exact ih.trans (h.adj_iff.mpr hedge).reachable

/-! ## Complete topologies -/

/-- Every listed server is adjacent to every other. -/
def Topology.complete (servers : List Addressable) (hnd : servers.Nodup) : Topology where
  nodes := servers.toFinset
  adj s := if s ∈ servers then servers.erase s else []
  adj_nodup s := by
    split
    · exact hnd.erase s
    · exact List.nodup_nil
  adj_nodes s t ht := by
    split at ht
    · rename_i hs
      simpa using ⟨hs, List.mem_of_mem_erase ht⟩
    · cases ht
  adj_symm s t ht := by
    split at ht
    · rename_i hs
      obtain ⟨hne, ht⟩ := (hnd.mem_erase_iff).mp ht
      rw [if_pos ht]
      exact hnd.mem_erase_iff.mpr ⟨hne.symm, hs⟩
    · cases ht

theorem Topology.connected_complete {servers : List Addressable} (hnd : servers.Nodup) :
    (Topology.complete servers hnd).Connected := by
  intro s hs t ht
  by_cases hst : s = t
  · rw [hst]
  · apply Relation.ReflTransGen.single
    have hs' : s ∈ servers := List.mem_toFinset.mp hs
    simp only [Topology.complete, if_pos hs']
    exact hnd.mem_erase_iff.mpr ⟨Ne.symm hst, List.mem_toFinset.mp ht⟩

/-! ## Concrete runs -/

/-- The server on machine `n`. -/
def node (n : UInt8) : Addressable := ⟨⟨10, 0, 0, n⟩, 4000⟩

/-- A client on machine `n`. -/
def desk (n : UInt8) : Addressable := ⟨⟨10, 0, 0, n⟩, 5000⟩

def twoServers : Topology := .complete [node 1, node 2] (by decide)

theorem twoServers_isTree : twoServers.IsTree := by
  refine ⟨fun s hs => ?_, Topology.connected_complete _, ?_⟩
  · simp only [twoServers, Topology.complete] at hs
    split at hs
    · exact (List.Nodup.mem_erase_iff (by decide)).mp hs |>.1 rfl
    · cases hs
  · have hnot : ¬ (⊥ : SimpleGraph Addressable).Reachable (node 1) (node 2) := by
      rw [SimpleGraph.reachable_bot]
      decide
    refine SimpleGraph.IsAcyclic.anti ?_
      ((SimpleGraph.isAcyclic_add_edge_iff_of_not_reachable _ _ hnot).mpr
        SimpleGraph.isAcyclic_bot)
    rintro s t ⟨hne, ht⟩
    obtain ⟨hs, ht⟩ := twoServers.adj_nodes s t ht
    simp only [twoServers, Topology.complete, List.mem_toFinset, List.mem_cons,
      List.not_mem_nil, or_false] at hs ht
    simp only [SimpleGraph.sup_adj, SimpleGraph.edge_adj]
    grind

end CliMessaging.Distributed
