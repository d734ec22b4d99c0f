import Mathlib.Logic.Relation
import Mathlib.Tactic.Abel
import Genode.Lib.StoredTree
import Genode.Tresor.MetaTree

/-!
# MetaTreeBooks — which addresses a meta tree consists of

Books are kept on a meta tree that is being changed: the nodes that are
held in memory, the references to nodes on disc and the entries. A node is
taken into memory, put back, written to its address, or moved to the
address of an entry. Whatever is done in this way, no address gets lost
and no address turns up twice.
-/

namespace Genode.Tresor.MetaTree

open Genode.Lib

/-! ## The tree on disc -/

/-- The child in a slot of a node block. -/
def childOf (edges : UInt64) (entries : Type1NodeBlock) (i : Fin nrOfNodesPerBlk) :
    Option Type1Node :=
  if i.val < edges.toNat ∧ (entries i).valid = true then some (entries i) else none

/-- The entry in a slot of a node block of level 1. -/
def entryOf (edges : UInt64) (entries : Type2NodeBlock) (i : Fin nrOfNodesPerBlk) :
    Multiset Type2Node :=
  if i.val < edges.toNat ∧ (entries i).valid = true then {entries i} else 0

def entriesOf (edges : UInt64) (entries : Type2NodeBlock) : Multiset Type2Node :=
  ∑ i, entryOf edges entries i

/-- The blocks of a meta tree with the given number of edges. -/
def layout (edges : UInt64) :
    TreeLayout PhysicalBlockAddress Block Type1Node Type2Node (Fin nrOfNodesPerBlk) where
  addr := Type1Node.pba
  child blk := childOf edges (Type1NodeBlock.decodeFromBlk blk)
  leaves blk := entriesOf edges (Type2NodeBlock.codec.decode blk.bytes)

/-- The nodes of the tree below a node of some level, the node included. -/
def nodesOf (edges : UInt64) (disk : Disk) (lvl : Nat) (n : Type1Node) : Multiset Type1Node :=
  ((layout edges).content disk (lvl - 1) n).1

/-- The entries of the tree below a node of some level. -/
def leavesOf (edges : UInt64) (disk : Disk) (lvl : Nat) (n : Type1Node) : Multiset Type2Node :=
  ((layout edges).content disk (lvl - 1) n).2

section Books

variable (sha : Block → Hash)

/-- The nodes match the hashes that are stored with their references. -/
def Matches (disk : Disk) (refs : Multiset Type1Node) : Prop :=
  ∀ r ∈ refs, sha (disk r.pba) = r.hash

/-- The books on a meta tree: the nodes in memory, the references to nodes
on disc, the entries, the disc, and the address that was given away. -/
structure Books where
  nodes : Multiset Type1Node
  refs : Multiset Type1Node
  leaves : Multiset Type2Node
  disk : Disk
  newPba : Option PhysicalBlockAddress

/-- What may happen to a meta tree. A node is written only at an address
that is `ok` to write to. -/
inductive Books.Tr (gen : Generation) (oldPba : PhysicalBlockAddress)
    (ok : PhysicalBlockAddress → Prop) : Books → Books → Prop where
  | load {N R : Multiset Type1Node} {E : Multiset Type2Node} {d : Disk}
      {p : Option PhysicalBlockAddress} {n : Type1Node} :
      Tr gen oldPba ok ⟨N, R + {n}, E, d, p⟩ ⟨N + {n}, R, E, d, p⟩
  | unload {N R : Multiset Type1Node} {E : Multiset Type2Node} {d : Disk}
      {p : Option PhysicalBlockAddress} {n : Type1Node} (hn : sha (d n.pba) = n.hash) :
      Tr gen oldPba ok ⟨N + {n}, R, E, d, p⟩ ⟨N, R + {n}, E, d, p⟩
  | store {N R : Multiset Type1Node} {E : Multiset Type2Node} {d : Disk}
      {p : Option PhysicalBlockAddress} {n r : Type1Node} {blk : Block} (hok : ok n.pba)
      (hr : r.pba = n.pba) (hsha : sha blk = r.hash) :
      Tr gen oldPba ok ⟨N + {n}, R, E, d, p⟩ ⟨N, R + {r}, E, Function.update d n.pba blk, p⟩
  | move {N R : Multiset Type1Node} {E : Multiset Type2Node} {d : Disk} {n n' : Type1Node}
      {e : Type2Node} (he : e.allocGen ≠ gen) (hn : n'.pba = e.pba) :
      Tr gen oldPba ok ⟨N + {n}, R, E + {e}, d, none⟩
        ⟨N + {n'}, R, E + {exchangedEntry gen n.pba e}, d, none⟩
  | exchange {N R : Multiset Type1Node} {E : Multiset Type2Node} {d : Disk} {e : Type2Node}
      (he : e.allocGen ≠ gen) :
      Tr gen oldPba ok ⟨N, R, E + {e}, d, none⟩
        ⟨N, R, E + {exchangedEntry gen oldPba e}, d, some e.pba⟩

namespace Books

/-- The addresses of the nodes. -/
def nodeAddrs (b : Books) : Multiset PhysicalBlockAddress := (b.nodes + b.refs).map Type1Node.pba

/-- The addresses of the entries. -/
def leafAddrs (b : Books) : Multiset PhysicalBlockAddress := b.leaves.map Type2Node.pba

/-- What has left the tree and what has come instead. -/
def given (b : Books) : Multiset PhysicalBlockAddress := b.newPba.elim 0 fun p => {p}

def taken (b : Books) (oldPba : PhysicalBlockAddress) : Multiset PhysicalBlockAddress :=
  b.newPba.elim 0 fun _ => {oldPba}

/-- The books on a tree all of which is on disc. -/
def ofTree (edges : UInt64) (disk : Disk) (lvl : Nat) (n : Type1Node) : Books where
  nodes := 0
  refs := nodesOf edges disk lvl n
  leaves := leavesOf edges disk lvl n
  disk := disk
  newPba := none

/-- The books are in order: all addresses of the tree `b₀` are still there
except the one that was given away, for which there is another one. -/
structure InOrder (gen : Generation) (oldPba : PhysicalBlockAddress) (b₀ b : Books) : Prop where
  total : b.nodeAddrs + b.leafAddrs + b.given = b₀.nodeAddrs + b₀.leafAddrs + b.taken oldPba
  nodup : b.nodeAddrs.Nodup
  unused : ∀ e ∈ b.leaves, e.allocGen ≠ gen → e ∈ b₀.leaves
  given_mem : ∀ p, b.newPba = some p → p ∈ b₀.leafAddrs
  matched : Matches sha b₀.disk b₀.refs → Matches sha b.disk b.refs

variable {sha} {gen : Generation} {oldPba : PhysicalBlockAddress} {ok : PhysicalBlockAddress → Prop}
  {b₀ b b' : Books}

theorem InOrder.ofTree {edges : UInt64} {disk : Disk} {lvl : Nat} {n : Type1Node}
    (h : (ofTree edges disk lvl n).nodeAddrs.Nodup) :
    InOrder sha gen oldPba (ofTree edges disk lvl n) (ofTree edges disk lvl n) where
  total := rfl
  nodup := h
  unused _ he _ := he
  given_mem _ hp := nomatch hp
  matched h := h

/-- As long as no address was given away, those of nodes and entries differ. -/
theorem InOrder.nodup_all (h : InOrder sha gen oldPba b₀ b) (hp : b.newPba = none)
    (h₀ : (b₀.nodeAddrs + b₀.leafAddrs).Nodup) : (b.nodeAddrs + b.leafAddrs).Nodup := by
  have ht := h.total
  rw [given, taken, hp] at ht
  change b.nodeAddrs + b.leafAddrs + 0 = b₀.nodeAddrs + b₀.leafAddrs + 0 at ht
  rw [add_zero, add_zero] at ht
  rwa [ht]

/-- No node on disc has the address of a node in memory. -/
theorem pba_ne_of_nodup {N R : Multiset Type1Node} {n r : Type1Node}
    (h : ((N + {n} + R).map Type1Node.pba).Nodup) (hr : r ∈ R) : r.pba ≠ n.pba := by
  rw [Multiset.map_add, Multiset.nodup_add] at h
  intro he
  apply Multiset.disjoint_left.mp h.2.2 _ (Multiset.mem_map_of_mem _ hr)
  rw [he]
  exact Multiset.mem_map_of_mem _ (Multiset.mem_add.mpr (.inr (Multiset.mem_singleton_self n)))

/-- The addresses of a node and of an entry change places. -/
theorem total_move {A B C : Multiset PhysicalBlockAddress} {p q : PhysicalBlockAddress} :
    A + {p} + B + (C + {q}) = A + {q} + B + (C + {p}) := by
  abel

theorem Tr.inOrder (h₀ : (b₀.nodeAddrs + b₀.leafAddrs).Nodup) (hb : InOrder sha gen oldPba b₀ b)
    (h : Tr sha gen oldPba ok b b') : InOrder sha gen oldPba b₀ b' := by
  cases h with
  | @load N R E d p n =>
    have haddr : nodeAddrs ⟨N + {n}, R, E, d, p⟩ = nodeAddrs ⟨N, R + {n}, E, d, p⟩ := by
      rw [nodeAddrs, nodeAddrs, add_right_comm, add_assoc]
    refine ⟨?_, haddr ▸ hb.nodup, hb.unused, hb.given_mem, ?_⟩
    · rw [haddr]
      exact hb.total
    · intro hm r hr
      exact hb.matched hm r (Multiset.mem_add.mpr (.inl hr))
  | @unload N R E d p n hn =>
    have haddr : nodeAddrs ⟨N, R + {n}, E, d, p⟩ = nodeAddrs ⟨N + {n}, R, E, d, p⟩ := by
      rw [nodeAddrs, nodeAddrs, add_right_comm, add_assoc]
    refine ⟨?_, haddr ▸ hb.nodup, hb.unused, hb.given_mem, ?_⟩
    · rw [haddr]
      exact hb.total
    · intro hm r hr
      rcases Multiset.mem_add.mp hr with hr | hr
      · exact hb.matched hm r hr
      · rw [Multiset.mem_singleton.mp hr]
        exact hn
  | @store N R E d p n r blk hok hr hsha =>
    have haddr : nodeAddrs ⟨N, R + {r}, E, Function.update d n.pba blk, p⟩ =
        nodeAddrs ⟨N + {n}, R, E, d, p⟩ := by
      simp only [nodeAddrs, Multiset.map_add, Multiset.map_singleton, hr]
      abel
    refine ⟨?_, haddr ▸ hb.nodup, hb.unused, hb.given_mem, ?_⟩
    · rw [haddr]
      exact hb.total
    · intro hm r' hr'
      rcases Multiset.mem_add.mp hr' with hr' | hr'
      · have hne : r'.pba ≠ n.pba := pba_ne_of_nodup hb.nodup hr'
        change sha (Function.update d n.pba blk r'.pba) = _
        rw [Function.update_of_ne hne]
        exact hb.matched hm r' hr'
      · rw [Multiset.mem_singleton.mp hr']
        change sha (Function.update d n.pba blk r.pba) = _
        rw [hr, Function.update_self]
        exact hsha
  | @move N R E d n n' e he hn =>
    have htotal : nodeAddrs ⟨N + {n'}, R, E + {exchangedEntry gen n.pba e}, d, none⟩ +
        leafAddrs ⟨N + {n'}, R, E + {exchangedEntry gen n.pba e}, d, none⟩ =
        nodeAddrs ⟨N + {n}, R, E + {e}, d, none⟩ + leafAddrs ⟨N + {n}, R, E + {e}, d, none⟩ := by
      simp only [nodeAddrs, leafAddrs, Multiset.map_add, Multiset.map_singleton, hn]
      exact total_move
    refine ⟨?_, ?_, ?_, ?_, hb.matched⟩
    · rw [htotal]
      exact hb.total
    · have hall := hb.nodup_all rfl h₀
      rw [← htotal] at hall
      exact (Multiset.nodup_add.mp hall).1
    · intro e' he' hg
      rcases Multiset.mem_add.mp he' with he' | he'
      · exact hb.unused e' (Multiset.mem_add.mpr (.inl he')) hg
      · rw [Multiset.mem_singleton.mp he'] at hg
        exact absurd rfl hg
    · intro p hp
      cases hp
  | @exchange N R E d e he =>
    refine ⟨?_, hb.nodup, ?_, ?_, hb.matched⟩
    · have ht := hb.total
      simp only [nodeAddrs, leafAddrs, given, taken, Option.elim, Multiset.map_add,
        Multiset.map_singleton, add_zero] at ht ⊢
      rw [← ht]
      change _ + (_ + {oldPba}) + {e.pba} = _
      abel
    · intro e' he' hg
      rcases Multiset.mem_add.mp he' with he' | he'
      · exact hb.unused e' (Multiset.mem_add.mpr (.inl he')) hg
      · rw [Multiset.mem_singleton.mp he'] at hg
        exact absurd rfl hg
    · intro p hp
      obtain rfl : e.pba = p := by simpa using hp
      exact Multiset.mem_map_of_mem _
        (hb.unused e (Multiset.mem_add.mpr (.inr (Multiset.mem_singleton_self e))) he)

/-- The books stay in order. -/
theorem InOrder.of_reaches (h₀ : (b₀.nodeAddrs + b₀.leafAddrs).Nodup)
    (hb : InOrder sha gen oldPba b₀ b) (h : Relation.ReflTransGen (Tr sha gen oldPba ok) b b') :
    InOrder sha gen oldPba b₀ b' := by
  induction h with
  | refl => exact hb
  | tail _ ht ih => exact ht.inOrder h₀ ih

end Books

end Books

end Genode.Tresor.MetaTree
