import Genode.Tresor.MetaTreePath

/-!
# MetaTreeSteps — every step keeps the books

Each step of the module and of block I/O does one of the things to the
tree that books are kept on, or nothing at all.
-/

namespace Genode.Tresor.MetaTree

open Genode.Lib

/-! ## Levels of a channel -/

section Views

variable {c : Channel} {l lvl : Nat} {info : Type1Info} {info' : Type2Info}

theorem view_root : c.view (c.request.mtMaxLvl + 1) = rootView c.mtRoot := if_pos rfl

theorem view_one (h : 2 ≤ c.request.mtMaxLvl) :
    c.view t2NodeLvl = c.level1Node.view c.request.mtEdges := by
  unfold Channel.view
  rw [if_neg, if_pos rfl]
  change 1 ≠ _
  omega

theorem view_inner (h : 2 ≤ l) (hle : l ≤ c.request.mtMaxLvl) :
    c.view l = (c.levelNNodes l).view c.request.mtEdges := by
  unfold Channel.view
  rw [if_neg (by omega), if_neg]
  change l ≠ 1
  omega

theorem view_setLevel {x : Type1Info} (h : 2 ≤ lvl) (hle : lvl ≤ c.request.mtMaxLvl) :
    (c.setLevel lvl x).view = Function.update c.view lvl (x.view c.request.mtEdges) := by
  funext l
  by_cases hl : l = lvl
  · rw [hl, Function.update_self, view_inner (c := c.setLevel lvl x) h hle]
    change Type1Info.view _ (Function.update c.levelNNodes lvl x lvl) = _
    rw [Function.update_self]
    rfl
  · rw [Function.update_of_ne hl]
    unfold Channel.view
    change (if l = c.request.mtMaxLvl + 1 then _ else if l = t2NodeLvl then _
      else Type1Info.view _ (Function.update c.levelNNodes lvl x l)) = _
    rw [Function.update_of_ne hl]
    rfl

theorem view_setLevel1 {x : Type2Info} (h : 2 ≤ c.request.mtMaxLvl) :
    Channel.view { c with level1Node := x } =
      Function.update c.view t2NodeLvl (x.view c.request.mtEdges) := by
  funext l
  by_cases hl : l = t2NodeLvl
  · rw [hl, Function.update_self]
    exact view_one (c := { c with level1Node := x }) h
  · rw [Function.update_of_ne hl]
    unfold Channel.view
    rw [if_neg hl, if_neg hl]

theorem view_setRoot {root : Type1Node} : Channel.view { c with mtRoot := root } =
    Function.update c.view (c.request.mtMaxLvl + 1) (rootView root) := by
  funext l
  by_cases hl : l = c.request.mtMaxLvl + 1
  · rw [hl, Function.update_self]
    exact view_root (c := { c with mtRoot := root })
  · rw [Function.update_of_ne hl]
    unfold Channel.view
    rw [if_neg hl, if_neg hl]

/-- The node block of an inner level after an entry was replaced. -/
theorem childOf_update {edges : UInt64} {entries : Type1NodeBlock} {i : Fin nrOfNodesPerBlk}
    {r : Type1Node} (hi : i.val < edges.toNat) (hr : r.valid = true) :
    childOf edges (Function.update entries i r) =
      Function.update (childOf edges entries) i (some r) := by
  funext j
  by_cases hj : j = i
  · rw [hj, Function.update_self]
    unfold childOf
    rw [Function.update_self, if_pos ⟨hi, hr⟩]
  · rw [Function.update_of_ne hj]
    unfold childOf
    rw [Function.update_of_ne hj]

theorem childOf_eq_some {edges : UInt64} {entries : Type1NodeBlock} {i : Fin nrOfNodesPerBlk}
    {r : Type1Node} : childOf edges entries i = some r ↔
      (i.val < edges.toNat ∧ (entries i).valid = true) ∧ entries i = r := by
  unfold childOf
  split
  · rename_i h
    rw [Option.some.injEq]
    exact (and_iff_right h).symm
  · rename_i h
    constructor
    · exact nofun
    · intro hr
      exact absurd hr.1 h

theorem entryIndex_eq_ok {index : Nat} {i : Fin nrOfNodesPerBlk} :
    entryIndex index = .ok i ↔ i.val = index := by
  unfold entryIndex
  split
  · rename_i h
    rw [Except.ok.injEq, Fin.ext_iff]
    exact eq_comm
  · rename_i h
    constructor
    · exact nofun
    · intro hi
      exact absurd (hi ▸ i.isLt) h

end Views

/-! ## The channel during a request -/

/-- A request to block I/O is about the node in work. -/
structure CacheRight (sha : Block → Hash) (edges : UInt64) (gen : Generation) (V : Nat → View)
    (m : Nat) (req : LocalCacheRequest) : Prop where
  level : req.level = m
  pba : req.pba = (V m).node.pba
  read : req.op = .read → (V m).state = .read
  write : req.op = .write → (V m).state = .write ∧ Shows edges m req.blockData (V m) ∧
    Records V m { pba := req.pba, gen := gen, hash := sha req.blockData } ∧
      (V (m + 1)).dirty = true

/-- The channel works on the node of a level. -/
structure Walking (sha : Block → Hash) (s : Config) (m : Nat) : Prop where
  path : Path sha s.chan.request.mtEdges s.disk s.chan.request.mtMaxLvl s.chan.view m
  updating : s.chan.state = .update
  two_le : 2 ≤ s.chan.request.mtMaxLvl
  le_max : s.chan.request.mtMaxLvl ≤ treeMaxLevel
  off : ∀ l, s.chan.request.mtMaxLvl < l → s.chan.levelNNodes l = {}
  success : s.chan.success = s.chan.finished
  unfinished : (s.chan.view t2NodeLvl).state = .read ∨
    (s.chan.view t2NodeLvl).state = .readComplete → s.chan.finished = false
  cache : s.chan.cacheRequest.state ≠ .invalid →
    CacheRight sha s.chan.request.mtEdges s.chan.request.currentGen s.chan.view m
      s.chan.cacheRequest

/-- The request is done, and nothing is held in memory any more. -/
structure Done (s : Config) : Prop where
  complete : s.chan.state = .complete
  released : ∀ l, l ≤ s.chan.request.mtMaxLvl → (s.chan.view l).state.held = false
  success : s.chan.success = s.chan.finished
  cache : s.chan.cacheRequest.state = .invalid

/-- The request has failed. -/
def Failed (s : Config) : Prop :=
  s.chan.state = .complete ∧ s.chan.success = false ∨ s.chan.state = .treeHashMismatch

/-- The request goes on, with books that tell what was done. -/
structure Goes (sha : Block → Hash) (ok : PhysicalBlockAddress → Prop) (s s' : Config) :
    Prop where
  request : s'.chan.request = s.chan.request
  served : (∃ m, Walking sha s' m) ∨ Done s'
  books : Relation.ReflTransGen
    (Books.Tr sha s.chan.request.currentGen s.chan.request.oldPba ok) s.books s'.books

/-- What most steps leave as it is. -/
structure Keeps (c c' : Channel) : Prop where
  request : c'.request = c.request
  state : c'.state = c.state
  success : c'.success = c.success
  finished : c'.finished = c.finished
  newPba : c'.newPba = c.newPba
  off : ∀ l, c.request.mtMaxLvl < l → c'.levelNNodes l = c.levelNNodes l

section Steps

variable {sha : Block → Hash} {ok : PhysicalBlockAddress → Prop} {s : Config} {m n : Nat}
  {c' : Channel} {d' : Disk} {V : Nat → View}

theorem Keeps.trans {c c₁ c₂ : Channel} (h : Keeps c c₁) (h' : Keeps c₁ c₂) : Keeps c c₂ :=
  ⟨h'.request.trans h.request, h'.state.trans h.state, h'.success.trans h.success,
    h'.finished.trans h.finished, h'.newPba.trans h.newPba,
    fun l hl => (h'.off l (h.request ▸ hl)).trans (h.off l hl)⟩

theorem Keeps.setLevel {c : Channel} {lvl : Nat} (hle : lvl ≤ c.request.mtMaxLvl)
    (info : Type1Info) : Keeps c (c.setLevel lvl info) :=
  ⟨rfl, rfl, rfl, rfl, rfl, fun _ hl => Function.update_of_ne (by omega) ..⟩

theorem Keeps.setLevel1 {c : Channel} {info : Type2Info} :
    Keeps c { c with level1Node := info } := ⟨rfl, rfl, rfl, rfl, rfl, fun _ _ => rfl⟩

theorem Keeps.setCache {c : Channel} {req : LocalCacheRequest} :
    Keeps c { c with cacheRequest := req } := ⟨rfl, rfl, rfl, rfl, rfl, fun _ _ => rfl⟩

theorem Walking.next (h : Walking sha s m) (hk : Keeps s.chan c') (hview : c'.view = V)
    (hpath : Path sha s.chan.request.mtEdges d' s.chan.request.mtMaxLvl V n)
    (hunf : (V t2NodeLvl).state = .read ∨ (V t2NodeLvl).state = .readComplete →
      s.chan.finished = false)
    (hcache : c'.cacheRequest.state ≠ .invalid → CacheRight sha s.chan.request.mtEdges
      s.chan.request.currentGen V n c'.cacheRequest) : Walking sha ⟨c', d'⟩ n where
  path := by
    change Path sha c'.request.mtEdges d' c'.request.mtMaxLvl c'.view n
    rw [hk.request, hview]
    exact hpath
  updating := hk.state.trans h.updating
  two_le := by
    change 2 ≤ c'.request.mtMaxLvl
    rw [hk.request]
    exact h.two_le
  le_max := by
    change c'.request.mtMaxLvl ≤ _
    rw [hk.request]
    exact h.le_max
  off l hl := by
    change c'.request.mtMaxLvl < l at hl
    rw [hk.request] at hl
    exact (hk.off l hl).trans (h.off l hl)
  success := hk.success.trans (h.success.trans hk.finished.symm)
  unfinished hst := by
    change (c'.view t2NodeLvl).state = _ ∨ (c'.view t2NodeLvl).state = _ at hst
    rw [hview] at hst
    exact hk.finished.trans (hunf hst)
  cache hne := by
    change CacheRight sha c'.request.mtEdges c'.request.currentGen c'.view n c'.cacheRequest
    rw [hk.request, hview]
    exact hcache hne

theorem books_def : s.books =
    { nodes := heldNodes s.chan.request.mtMaxLvl s.chan.view
      refs := (stored s.chan.request.mtEdges s.disk s.chan.request.mtMaxLvl s.chan.view).1
      leaves := (stored s.chan.request.mtEdges s.disk s.chan.request.mtMaxLvl s.chan.view).2
      disk := s.disk
      newPba := if s.chan.finished then some s.chan.newPba else none } := rfl

theorem books_of_keeps (hk : Keeps s.chan c') (hview : c'.view = V) :
    Config.books ⟨c', d'⟩ =
      { nodes := heldNodes s.chan.request.mtMaxLvl V
        refs := (stored s.chan.request.mtEdges d' s.chan.request.mtMaxLvl V).1
        leaves := (stored s.chan.request.mtEdges d' s.chan.request.mtMaxLvl V).2
        disk := d'
        newPba := if s.chan.finished then some s.chan.newPba else none } := by
  unfold Config.books
  rw [hk.request, hview, hk.finished, hk.newPba]

/-- Nothing happens to the tree. -/
theorem Goes.quiet (hk : Keeps s.chan c') (hview : c'.view = V)
    (hserved : (∃ m, Walking sha ⟨c', s.disk⟩ m) ∨ Done ⟨c', s.disk⟩)
    (hstored : stored s.chan.request.mtEdges s.disk s.chan.request.mtMaxLvl V =
      stored s.chan.request.mtEdges s.disk s.chan.request.mtMaxLvl s.chan.view)
    (hheld : heldNodes s.chan.request.mtMaxLvl V =
      heldNodes s.chan.request.mtMaxLvl s.chan.view) : Goes sha ok s ⟨c', s.disk⟩ := by
  refine ⟨hk.request, hserved, ?_⟩
  rw [books_of_keeps hk hview, hstored, hheld]
  exact .refl

/-! ### Block I/O -/

theorem Walking.drop (h : Walking sha s m) (hs : dropGeneratedRequest s.chan = .ok c') :
    Goes sha ok s ⟨c', s.disk⟩ := by
  unfold dropGeneratedRequest at hs
  obtain ⟨_, hpend, hs⟩ := Exec.bind_eq_ok.mp hs
  rw [Exec.assert_eq_ok, decide_eq_true_iff] at hpend
  have hc := h.cache (by rw [hpend]; exact nofun)
  have hc' := Except.ok.inj hs
  have hk : Keeps s.chan c' := hc' ▸ Keeps.setCache
  have hview : c'.view = s.chan.view := hc' ▸ rfl
  apply Goes.quiet hk hview (.inl ⟨m, h.next hk hview h.path h.unfinished fun _ => ?_⟩) rfl rfl
  rw [← hc']
  exact ⟨hc.level, hc.pba, hc.read, hc.write⟩

/-- The level of the node in work. -/
theorem Walking.one_or_inner (h : Walking sha s m) :
    (m = t2NodeLvl ∧ s.chan.view m = s.chan.level1Node.view s.chan.request.mtEdges) ∨
      (2 ≤ m ∧ s.chan.view m = (s.chan.levelNNodes m).view s.chan.request.mtEdges) := by
  by_cases hm : m = t2NodeLvl
  · exact .inl ⟨hm, hm ▸ view_one h.two_le⟩
  · have hpos := h.path.pos
    have h2 : 2 ≤ m := by
      change m ≠ 1 at hm
      omega
    exact .inr ⟨h2, view_inner h2 h.path.le⟩

/-- The node in work was read. -/
theorem Walking.load {v : View} (h : Walking sha s m) (hs : (s.chan.view m).state = .read)
    (hk : Keeps s.chan c') (hview : c'.view = Function.update s.chan.view m v)
    (hv : v.state = .readComplete) (hn : v.node = (s.chan.view m).node)
    (hd : v.dirty = (s.chan.view m).dirty)
    (hshow : Shows s.chan.request.mtEdges m (s.disk v.node.pba) v)
    (hsha : sha (s.disk v.node.pba) = v.node.hash) (hcache : c'.cacheRequest.state = .invalid) :
    Goes sha ok s ⟨c', s.disk⟩ := by
  obtain ⟨hpath, hstored, hheld⟩ := h.path.load hs hv hn hd hshow hsha
  have hwalk : Walking sha ⟨c', s.disk⟩ m := by
    apply h.next hk hview hpath _ fun hne => absurd hcache hne
    intro hst
    apply h.unfinished
    by_cases hm : t2NodeLvl = m
    · exact .inl (hm ▸ hs)
    · rwa [Function.update_of_ne hm] at hst
  refine ⟨hk.request, .inl ⟨m, hwalk⟩, .single ?_⟩
  rw [books_of_keeps hk hview, hheld, books_def, hstored, Prod.fst_add, Prod.snd_add, add_zero]
  exact .load

/-- The node in work was written. -/
theorem Walking.store {v : View} (h : Walking sha s m)
    (hc : CacheRight sha s.chan.request.mtEdges s.chan.request.currentGen s.chan.view m
      s.chan.cacheRequest) (hop : s.chan.cacheRequest.op = .write)
    (hok : ok s.chan.cacheRequest.pba) (hnodup : s.books.nodeAddrs.Nodup)
    (hk : Keeps s.chan c') (hview : c'.view = Function.update s.chan.view m v)
    (hv : v.state = .writeComplete) (hd : (s.chan.view m).dirty = true → v.dirty = true)
    (hcache : c'.cacheRequest.state = .invalid) :
    Goes sha ok s
      ⟨c', Function.update s.disk s.chan.cacheRequest.pba s.chan.cacheRequest.blockData⟩ := by
  obtain ⟨hs, hshow, hrec, hup⟩ := hc.write hop
  obtain ⟨hpath, hstored, hheld⟩ := h.path.store hs hv hd hnodup hshow hrec hc.pba hup
  refine ⟨hk.request, .inl ⟨m, ?_⟩, .single ?_⟩
  · apply h.next hk hview hpath _ fun hne => absurd hcache hne
    intro hst
    apply h.unfinished
    by_cases hm : t2NodeLvl = m
    · rw [hm, Function.update_self, hv] at hst
      rcases hst with hst | hst <;> cases hst
    · rwa [Function.update_of_ne hm] at hst
  · rw [books_of_keeps hk hview, hstored, books_def, hheld, Prod.fst_add, Prod.snd_add, add_zero,
      hc.pba]
    rw [hc.pba] at hok
    exact .store hok rfl rfl

/-! ### Leaving a node -/

/-- The books after the node in work was put back or is on disc already. -/
theorem Walking.leave {v w : View} (h : Walking sha s m)
    (hs : (s.chan.view m).state = .writeComplete ∨ (s.chan.view m).state = .complete)
    (hv : v.state = .invalid) (hk : Keeps { s.chan with state := c'.state } c')
    (hview : c'.view = Function.update s.chan.view m v ∨
      c'.view = Function.update (Function.update s.chan.view m v) (m + 1) w)
    (hw : w = { s.chan.view (m + 1) with index := (s.chan.view (m + 1)).index + 1 }) :
    Relation.ReflTransGen (Books.Tr sha s.chan.request.currentGen s.chan.request.oldPba ok)
      s.books (Config.books ⟨c', s.disk⟩) := by
  have hnot : v.state.held = false := by
    rw [hv]
    rfl
  have hquiet : Quiet (Function.update s.chan.view m v) (m + 1) w := by
    have hnext : Function.update s.chan.view m v (m + 1) = s.chan.view (m + 1) :=
      Function.update_of_ne (Nat.succ_ne_self m) ..
    refine ⟨?_, ?_, fun hheld => ?_, fun i _ => ?_⟩
    · rw [hnext, hw]
    · rw [hnext, hw]
    · rw [Nat.add_sub_cancel, Function.update_self, hnot] at hheld
      cases hheld
    · rw [hnext, hw]
  have hnode : w.node = (Function.update s.chan.view m v (m + 1)).node := by
    rw [Function.update_of_ne (Nat.succ_ne_self m), hw]
  have hbooks : Config.books ⟨c', s.disk⟩ =
      { nodes := heldNodes s.chan.request.mtMaxLvl (Function.update s.chan.view m v)
        refs := (stored s.chan.request.mtEdges s.disk s.chan.request.mtMaxLvl
          (Function.update s.chan.view m v)).1
        leaves := (stored s.chan.request.mtEdges s.disk s.chan.request.mtMaxLvl
          (Function.update s.chan.view m v)).2
        disk := s.disk
        newPba := if s.chan.finished then some s.chan.newPba else none } := by
    have hkeeps := hk.request
    unfold Config.books
    rw [hkeeps, hk.finished, hk.newPba]
    rcases hview with hview | hview
    · rw [hview]
    · rw [hview, hquiet.stored, heldNodes_update hquiet.held hnode]
  rw [hbooks]
  rcases hs with hs | hs
  · have hheld : (s.chan.view m).state.held = false := by
      rw [hs]
      rfl
    obtain ⟨hstored, hnodes⟩ := stored_of_not_held s.chan.request.mtEdges s.disk
      s.chan.request.mtMaxLvl hheld hnot
    rw [hstored, hnodes]
    exact .refl
  · obtain ⟨hstored, hnodes, hsha⟩ := h.path.unload hs hv
    rw [books_def, hnodes, hstored, Prod.fst_add, Prod.snd_add, add_zero]
    exact .single (.unload hsha)

theorem Walking.ascend {v w : View} (h : Walking sha s m) (hlt : m < s.chan.request.mtMaxLvl)
    (hs : (s.chan.view m).state = .writeComplete ∨ (s.chan.view m).state = .complete)
    (hv : v.state = .invalid) (hk : Keeps s.chan c')
    (hview : c'.view = Function.update (Function.update s.chan.view m v) (m + 1) w)
    (hw : w = { s.chan.view (m + 1) with index := (s.chan.view (m + 1)).index + 1 })
    (hcache : c'.cacheRequest.state = .invalid) : Goes sha ok s ⟨c', s.disk⟩ := by
  have hk' : Keeps { s.chan with state := c'.state } c' :=
    ⟨hk.request, rfl, hk.success, hk.finished, hk.newPba, hk.off⟩
  refine ⟨hk.request, .inl ⟨m + 1, ?_⟩, h.leave hs hv hk' (.inr hview) hw⟩
  apply h.next hk hview (h.path.ascend hlt hs hw hv) _ fun hne => absurd hcache hne
  intro hst
  have hpos := h.path.pos
  apply h.unfinished
  have hne : t2NodeLvl ≠ m + 1 := by
    change 1 ≠ _
    omega
  rw [Function.update_of_ne hne] at hst
  by_cases hm : t2NodeLvl = m
  · rw [hm, Function.update_self, hv] at hst
    rcases hst with hst | hst <;> cases hst
  · rwa [Function.update_of_ne hm] at hst

theorem Walking.finish {v : View} (h : Walking sha s m) (hm : m = s.chan.request.mtMaxLvl)
    (hs : (s.chan.view m).state = .writeComplete ∨ (s.chan.view m).state = .complete)
    (hv : v.state = .invalid) (hk : Keeps { s.chan with state := .complete } c')
    (hview : c'.view = Function.update s.chan.view m v)
    (hcache : c'.cacheRequest.state = .invalid) : Goes sha ok s ⟨c', s.disk⟩ := by
  have hk' : Keeps { s.chan with state := c'.state } c' :=
    ⟨hk.request, rfl, hk.success, hk.finished, hk.newPba, hk.off⟩
  refine ⟨hk.request, .inr ⟨hk.state, ?_, ?_, hcache⟩, h.leave hs hv hk' (.inl hview) rfl⟩
  · intro l hl
    change l ≤ c'.request.mtMaxLvl at hl
    change (c'.view l).state.held = false
    rw [hk.request] at hl
    rw [hview]
    by_cases hlm : l = m
    · rw [hlm, Function.update_self, hv]
      rfl
    · rw [Function.update_of_ne hlm, h.path.below l (by change l ≤ s.chan.request.mtMaxLvl at hl; omega)]
      rfl
  · exact hk.success.trans (h.success.trans hk.finished.symm)

/-! ### Working on a node -/

/-- The parent notes the block that is about to be written. -/
theorem Walking.record {v : View} {b : Block} {i : Fin nrOfNodesPerBlk} (h : Walking sha s m)
    (hs : (s.chan.view m).state = .write) (hk : Keeps s.chan c')
    (hview : c'.view = Function.update s.chan.view (m + 1) v)
    (hi : i.val = (s.chan.view (m + 1)).index)
    (hv : v = { s.chan.view (m + 1) with
      dirty := true
      child := Function.update (s.chan.view (m + 1)).child i
        (some (updateParent sha b s.chan.request.currentGen (s.chan.view m).node.pba)) })
    (hshow : Shows s.chan.request.mtEdges m b (s.chan.view m))
    (hcache : c'.cacheRequest = newCacheWrite (s.chan.view m).node.pba m b) :
    Goes sha ok s ⟨c', s.disk⟩ := by
  have hself : Function.update s.chan.view (m + 1) v m = s.chan.view m :=
    Function.update_of_ne (Nat.ne_of_lt (Nat.lt_succ_self m)) ..
  have hchild : v.child i =
      some (updateParent sha b s.chan.request.currentGen (s.chan.view m).node.pba) := by
    rw [hv]
    exact Function.update_self ..
  have hdirty : v.dirty = true := by
    rw [hv]
  obtain ⟨hpath, hrec⟩ := h.path.record (v := v) hs (by rw [hv]; exact h.path.above_succ.1) hdirty
    (by rw [hv]; exact hi) hchild
  have hquiet : Quiet s.chan.view (m + 1) v := by
    refine ⟨?_, ?_, fun _ => ?_, fun j hj => ?_⟩
    · rw [hv]
    · rw [hv]
    · rw [hv]
    · rw [hv]
      apply Function.update_of_ne
      intro hji
      apply hj _ (hji ▸ hi)
      rw [Nat.add_sub_cancel, hs]
      rfl
  have hwalk : Walking sha ⟨c', s.disk⟩ m := by
    apply h.next hk hview hpath
    · intro hst
      apply h.unfinished
      have hne : t2NodeLvl ≠ m + 1 := by
        have hpos := h.path.pos
        change 1 ≠ _
        omega
      rwa [Function.update_of_ne hne] at hst
    · intro _
      rw [hcache]
      refine ⟨rfl, ?_, nofun, fun _ => ⟨?_, ?_, ?_, ?_⟩⟩
      · rw [hself]
        rfl
      · rw [hself]
        exact hs
      · rw [hself]
        exact hshow
      · exact hrec
      · rw [Function.update_self]
        exact hdirty
  exact Goes.quiet hk hview (.inl ⟨m, hwalk⟩) hquiet.stored
    (heldNodes_update hquiet.held (by rw [hv]))

/-- The node in work is asked for. -/
theorem Walking.ask (h : Walking sha s m) (hs : (s.chan.view m).state = .read)
    (hk : Keeps s.chan c') (hview : c'.view = s.chan.view)
    (hcache : c'.cacheRequest = newCacheRequest (s.chan.view m).node.pba m) :
    Goes sha ok s ⟨c', s.disk⟩ := by
  apply Goes.quiet hk hview (.inl ⟨m, h.next hk hview h.path h.unfinished fun _ => ?_⟩) rfl rfl
  rw [hcache]
  exact ⟨rfl, rfl, fun _ => hs, nofun⟩

/-- The child at the index is entered. -/
theorem Walking.descend {v : View} (h : Walking sha s (m + 1)) (hm : 1 ≤ m)
    (hs : (s.chan.view (m + 1)).state = .readComplete) (hfin : s.chan.finished = false)
    (hk : Keeps s.chan c') (hview : c'.view = Function.update s.chan.view m v)
    (hr : Records s.chan.view m v.node) (hv : v.state = .read) (hd : v.dirty = false)
    (hcache : c'.cacheRequest.state = .invalid) : Goes sha ok s ⟨c', s.disk⟩ := by
  have hheld : (s.chan.view m).state.held = false := by
    rw [h.path.below m (Nat.lt_succ_self m)]
    rfl
  have hnot : v.state.held = false := by
    rw [hv]
    rfl
  obtain ⟨hstored, hnodes⟩ := stored_of_not_held s.chan.request.mtEdges s.disk
    s.chan.request.mtMaxLvl hheld hnot
  refine Goes.quiet hk hview (.inl ⟨m, ?_⟩) hstored hnodes
  exact h.next hk hview (h.path.descend hm hs hr hv hd) (fun _ => hfin)
    fun hne => absurd hcache hne

/-- All children were visited that the request has to visit. -/
theorem Walking.through {v : View} {t : NodeState} (h : Walking sha s m)
    (hs : (s.chan.view m).state = .readComplete) (hk : Keeps s.chan c')
    (hstate : t = if (s.chan.view m).dirty then .write else .complete)
    (hview : c'.view = Function.update s.chan.view m v)
    (hv : v = { s.chan.view m with state := t })
    (hcache : c'.cacheRequest.state = .invalid) : Goes sha ok s ⟨c', s.disk⟩ := by
  have hheld : v.state.held = (s.chan.view m).state.held := by
    rw [hv, hs]
    change t.held = _
    rw [hstate]
    split <;> rfl
  have hquiet : Quiet s.chan.view m v := by
    refine ⟨hheld, ?_, fun _ => ?_, fun _ _ => ?_⟩
    · rw [hv]
    · rw [hv]
    · rw [hv]
  refine Goes.quiet hk hview (.inl ⟨m, ?_⟩) hquiet.stored (heldNodes_update hheld (by rw [hv]))
  apply h.next hk hview (h.path.finish hs hstate hv) _ fun hne => absurd hcache hne
  intro hst
  by_cases hm : t2NodeLvl = m
  · exact h.unfinished (.inr (hm ▸ hs))
  · rw [Function.update_of_ne hm] at hst
    exact h.unfinished hst

end Steps

end Genode.Tresor.MetaTree
