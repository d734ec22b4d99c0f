import Genode.Tresor.VirtualBlockDevice

/-!
# VbdSnapshots — what becomes of the snapshots of a request

The virtual block device changes the snapshots that it is given: reading
and writing at most the generation of the one, re-encryption only where a
snapshot is stored, and an extension adds a snapshot of the current
generation.
-/

namespace Genode.Tresor

open Genode.Lib

/-! ## The newest snapshot -/

section Newest

variable {snaps : Snapshots} {seen idxs : List SnapshotIndex} {result : Option SnapshotIndex}
  {r idx : SnapshotIndex}

/-- A valid snapshot that none of the valid ones among `idxs` is newer than. -/
structure NewestOf (snaps : Snapshots) (idxs : List SnapshotIndex) (r : SnapshotIndex) : Prop where
  valid : (snaps r).valid = true
  newest : ∀ idx ∈ idxs, (snaps idx).valid = true → (snaps idx).gen ≤ (snaps r).gen

/-- What a search has found among the snapshots that it has seen. -/
def Found (snaps : Snapshots) (seen : List SnapshotIndex) : Option SnapshotIndex → Prop
  | none => ∀ idx ∈ seen, (snaps idx).valid = false
  | some r => NewestOf snaps seen r

theorem NewestOf.snoc (h : NewestOf snaps seen r)
    (hidx : (snaps idx).valid = true → (snaps idx).gen ≤ (snaps r).gen) :
    NewestOf snaps (seen ++ [idx]) r := by
  refine ⟨h.valid, fun i hi hv => ?_⟩
  rcases List.mem_append.mp hi with hi | hi
  · exact h.newest i hi hv
  · obtain rfl := List.mem_singleton.mp hi
    exact hidx hv

theorem Found.newer (h : Found snaps seen result) :
    Found snaps (seen ++ [idx]) (Snapshots.newer snaps result idx) := by
  unfold Snapshots.newer
  cases hv : (snaps idx).valid with
  | false =>
    change Found snaps (seen ++ [idx]) result
    cases result with
    | none =>
      intro i hi
      rcases List.mem_append.mp hi with hi | hi
      · exact h i hi
      · rw [List.mem_singleton.mp hi]
        exact hv
    | some r => exact NewestOf.snoc h fun hv' => by rw [hv] at hv'; cases hv'
  | true =>
    cases result with
    | none =>
      refine ⟨hv, fun i hi hvi => ?_⟩
      rcases List.mem_append.mp hi with hi | hi
      · rw [h i hi] at hvi
        cases hvi
      · rw [List.mem_singleton.mp hi]
        exact UInt64.le_refl _
    | some r =>
      change Found snaps (seen ++ [idx])
        (if (snaps idx).gen ≤ (snaps r).gen then some r else some idx)
      split
      · rename_i hle
        exact NewestOf.snoc h fun _ => hle
      · rename_i hlt
        refine ⟨hv, fun i hi hvi => ?_⟩
        rcases List.mem_append.mp hi with hi | hi
        · exact UInt64.le_trans (NewestOf.newest h i hi hvi) (UInt64.le_of_lt (UInt64.not_le.mp hlt))
        · rw [List.mem_singleton.mp hi]
          exact UInt64.le_refl _

theorem Found.foldl (h : Found snaps seen result) :
    Found snaps (seen ++ idxs) (idxs.foldl (Snapshots.newer snaps) result) := by
  induction idxs generalizing seen result with
  | nil => rwa [List.append_nil]
  | cons idx idxs ih =>
    rw [List.foldl_cons, ← List.singleton_append, ← List.append_assoc]
    exact ih h.newer

/-- The newest snapshot is valid and no valid snapshot is newer. -/
theorem newestSnapshotIdx_spec (h : snaps.newestSnapshotIdx = some r) :
    (snaps r).valid = true ∧ ∀ idx, (snaps idx).valid = true → (snaps idx).gen ≤ (snaps r).gen := by
  have hf : Found snaps ([] ++ List.finRange maxNrOfSnapshots) snaps.newestSnapshotIdx :=
    Found.foldl fun _ hi => by cases hi
  rw [h] at hf
  exact ⟨hf.valid, fun idx => hf.newest idx (List.mem_finRange idx)⟩

end Newest

namespace Vbd

section Steps

variable {sha : Block → Hash} {answers : GeneratedRequest → Answer → Prop} {c c' : Channel}
  {op : Op} {ans : Answer}

theorem request_of_answer (h : generatedRequestComplete c op ans = .ok c') :
    c'.request = c.request ∧ c'.snapshotIdx = c.snapshotIdx ∧ c'.state = .done op := by
  unfold generatedRequestComplete at h
  cases op with
  | readRootNode =>
    obtain ⟨u, -, h⟩ := Exec.bind_eq_ok.mp h
    cases h
    exact ⟨rfl, rfl, rfl⟩
  | readInnerNode =>
    obtain ⟨u, -, h⟩ := Exec.bind_eq_ok.mp h
    cases h
    exact ⟨rfl, rfl, rfl⟩
  | _ =>
    cases h
    exact ⟨rfl, rfl, rfl⟩

/-- What the execution of a channel keeps holds of all that it comes to. -/
theorem Processes.invariant {I : Channel → Prop} {req : Request}
    (hsubmit : I (c.submitRequest req))
    (hexec : ∀ c c', I c → execute sha c = .ok c' → I c')
    (hanswer : ∀ c c' op, I c → c.state = .pending op → c'.request = c.request →
      c'.snapshotIdx = c.snapshotIdx → c'.state = .done op → I c')
    (h : Processes sha answers c req c') : I c' := by
  induction h with
  | refl => exact hsubmit
  | tail _ hs ih =>
    cases hs with
    | execute he => exact hexec _ _ ih he
    | answer hs hr ha he =>
      obtain ⟨h₁, h₂, h₃⟩ := request_of_answer he
      exact hanswer _ _ _ ih hs h₁ h₂ h₃

end Steps

/-! ## Reading and writing -/

section Access

variable {sha : Block → Hash} {answers : GeneratedRequest → Answer → Prop} {a : CreateArgs}
  {c c' : Channel}

/-- The snapshot that was written, or the one before. -/
def Rewritten (a : CreateArgs) (s : Snapshot) : Prop :=
  s.valid = a.snapshot.valid ∧ (s.gen = a.snapshot.gen ∨ s.gen = a.currentGen)

/-- A channel that writes to a virtual block. -/
structure WritesVba (a : CreateArgs) (c : Channel) : Prop where
  type : c.request.type = .writeVba
  currGen : c.request.currGen = a.currentGen
  idx : c.state ≠ .submitted → c.snapshotIdx = ⟨0, maxNrOfSnapshots_pos⟩
  snap : Rewritten a (c.request.snapshots ⟨0, maxNrOfSnapshots_pos⟩)

theorem execute_writeVba (h : c.request.type = .writeVba) :
    execute sha c = executeWriteVba sha c := by
  simp only [execute, h]

theorem WritesVba.updateNode (sha : Block → Hash) (h : WritesVba a c) (hs : c.state ≠ .submitted)
    (lvl : Nat) :
    WritesVba a (updateNode sha c lvl) ∧ (updateNode sha c lvl).state = c.state := by
  unfold Vbd.updateNode
  dsimp only
  split
  · exact ⟨{ h with }, rfl⟩
  · refine ⟨⟨h.type, h.currGen, h.idx, ?_⟩, rfl⟩
    have hidx := h.idx hs
    simp only [Channel.setSnap, hidx, Function.update_self, Channel.snap]
    exact ⟨h.snap.1, .inr h.currGen⟩

theorem WritesVba.updateNodes (sha : Block → Hash) (h : WritesVba a c) (hs : c.state ≠ .submitted) :
    WritesVba a (updateNodesOfBranchOfWrittenVba sha c) ∧
      (updateNodesOfBranchOfWrittenVba sha c).state = c.state := by
  unfold updateNodesOfBranchOfWrittenVba
  induction List.range (c.maxLevel + 1) using List.reverseRecOn with
  | nil => exact ⟨h, rfl⟩
  | append_singleton lvls lvl ih =>
    rw [List.foldl_append, List.foldl_cons, List.foldl_nil]
    obtain ⟨hu, hst⟩ := ih
    obtain ⟨hu', hst'⟩ := hu.updateNode sha (hst ▸ hs) lvl
    exact ⟨hu', hst'.trans hst⟩

theorem WritesVba.execute (h : WritesVba a c) (he : execute sha c = .ok c') : WritesVba a c' := by
  rw [execute_writeVba h.type] at he
  unfold executeWriteVba at he
  split at he
  · cases he
    exact ⟨h.type, h.currGen, fun _ => rfl, h.snap⟩
  · rename_i hs
    have hidx := h.idx (by rw [hs]; intro hh; cases hh)
    obtain ⟨u, -, he⟩ := Exec.bind_eq_ok.mp he
    obtain ⟨u, -, he⟩ := Exec.bind_eq_ok.mp he
    split at he
    · cases he
      exact ⟨h.type, h.currGen, fun _ => hidx, h.snap⟩
    · obtain ⟨c₁, hc₁, he⟩ := Exec.bind_eq_ok.mp he
      obtain ⟨u, -, hc₁⟩ := Exec.bind_eq_ok.mp hc₁
      cases hc₁
      split at he
      · cases he
        exact ⟨h.type, h.currGen, fun _ => hidx, h.snap⟩
      · cases he
        exact ⟨h.type, h.currGen, fun _ => hidx, h.snap⟩
  · rename_i hs
    have hidx := h.idx (by rw [hs]; intro hh; cases hh)
    obtain ⟨u, -, he⟩ := Exec.bind_eq_ok.mp he
    cases he
    exact ⟨h.type, h.currGen, fun _ => hidx, h.snap⟩
  · rename_i hs
    have hne : c.state ≠ .submitted := by rw [hs]; intro hh; cases hh
    obtain ⟨u, -, he⟩ := Exec.bind_eq_ok.mp he
    obtain ⟨hu, hst⟩ := h.updateNodes sha hne
    cases he
    exact ⟨hu.type, hu.currGen, fun _ => hu.idx (hst ▸ hne), hu.snap⟩
  · rename_i hs
    have hidx := h.idx (by rw [hs]; intro hh; cases hh)
    obtain ⟨u, -, he⟩ := Exec.bind_eq_ok.mp he
    cases he
    exact ⟨h.type, h.currGen, fun _ => hidx, h.snap⟩
  · rename_i hs
    have hidx := h.idx (by rw [hs]; intro hh; cases hh)
    obtain ⟨u, -, he⟩ := Exec.bind_eq_ok.mp he
    cases he
    exact ⟨h.type, h.currGen, fun _ => hidx, h.snap⟩
  · cases he
    exact h

/-- What a request to write has made of its snapshot. -/
theorem rewritten_of_processes (ht : a.reqType = .writeVba)
    (h : Processes sha answers c (Request.create a) c') :
    Rewritten a (c'.request.snapshots ⟨0, maxNrOfSnapshots_pos⟩) := by
  have hinv : WritesVba a c' := by
    refine h.invariant ?_ (fun c c' hc he => hc.execute he) ?_
    · refine ⟨?_, ?_, fun hne => absurd rfl hne, ?_⟩
      · simp [Channel.submitRequest, Request.create, ht]
      · simp [Channel.submitRequest, Request.create, ht]
      · simp [Channel.submitRequest, Request.create, ht, Rewritten]
    · intro c c' op hc hs hreq hidx hs'
      refine ⟨hreq ▸ hc.type, hreq ▸ hc.currGen, fun _ => ?_, hreq ▸ hc.snap⟩
      rw [hidx]
      exact hc.idx (by rw [hs]; intro hh; cases hh)
  exact hinv.snap

end Access

/-! ## Re-encryption and extension -/

section Resizing

variable {sha : Block → Hash} {answers : GeneratedRequest → Answer → Prop} {a : CreateArgs}
  {c c' : Channel} {next : Exec Channel}

/-- The channel works on with the same snapshots. -/
structure Stays (c c' : Channel) : Prop where
  snapshots : c'.request.snapshots = c.request.snapshots
  type : c'.request.type = c.request.type
  currGen : c'.request.currGen = c.request.currGen
  lastSecured : c'.request.lastSecuredGeneration = c.request.lastSecuredGeneration
  started : c'.state ≠ .submitted

theorem Stays.checked (h : c.handleFailedGeneratedReq next = .ok c')
    (hnext : next = .ok c' → Stays c c') : Stays c c' := by
  unfold Channel.handleFailedGeneratedReq at h
  split at h
  · exact hnext h
  · cases h
    exact ⟨rfl, rfl, rfl, rfl, fun h => by cases h⟩

theorem Stays.setArgsForAllocForRekeying {c₀ : Channel} {minLvl : Nat} {op : Op}
    (h : setArgsForAllocForRekeying c minLvl op = .ok c') (hc : c.request = c₀.request) :
    Stays c₀ c' := by
  obtain ⟨u, -, h⟩ := Exec.bind_eq_ok.mp h
  cases h
  exact ⟨congrArg _ hc, congrArg _ hc, congrArg _ hc, congrArg _ hc, fun h => by cases h⟩

theorem Stays.readAndRemember {c₀ : Channel} {op : Op} {pba : PhysicalBlockAddress}
    (h : readAndRemember c op pba = .ok c') (hc : c.request = c₀.request) : Stays c₀ c' := by
  obtain ⟨u, -, h⟩ := Exec.bind_eq_ok.mp h
  cases h
  exact ⟨congrArg _ hc, congrArg _ hc, congrArg _ hc, congrArg _ hc, fun h => by cases h⟩

theorem Stays.rekeyNodeRead (h : rekeyNodeRead sha c = .ok c') : Stays c c' := by
  unfold Vbd.rekeyNodeRead at h
  dsimp only at h
  split at h
  · cases h
    exact ⟨rfl, rfl, rfl, rfl, fun h => by cases h⟩
  · split at h
    · split at h
      · exact .setArgsForAllocForRekeying h rfl
      · exact .readAndRemember h rfl
    · split at h
      · exact .setArgsForAllocForRekeying h rfl
      · split at h
        · exact .setArgsForAllocForRekeying h rfl
        · cases h
          exact ⟨rfl, rfl, rfl, rfl, fun h => by cases h⟩

/-- Two snapshots that may be stored at different places. -/
structure SameKind (s t : Snapshot) : Prop where
  gen : s.gen = t.gen
  valid : s.valid = t.valid
  keep : s.keep = t.keep
  nrOfLeaves : s.nrOfLeaves = t.nrOfLeaves

/-- The snapshots that a request works on. -/
def keptSnapshots (a : CreateArgs) : Snapshots :=
  a.snapshots.discardDisposableSnapshots a.currentGen a.lastSecuredGeneration

/-- A channel that re-encrypts a virtual block. -/
structure RekeysVba (a : CreateArgs) (c : Channel) : Prop where
  type : c.request.type = .rekeyVba
  currGen : c.request.currGen = a.currentGen
  lastSecured : c.request.lastSecuredGeneration = a.lastSecuredGeneration
  submitted : c.state = .submitted → c.request.snapshots = a.snapshots
  started : c.state ≠ .submitted → ∀ idx, SameKind (c.request.snapshots idx) (keptSnapshots a idx)

theorem RekeysVba.stays (h : RekeysVba a c) (hs : c.state ≠ .submitted) (hc : Stays c c') :
    RekeysVba a c' := by
  refine ⟨hc.type.trans h.type, hc.currGen.trans h.currGen, hc.lastSecured.trans h.lastSecured,
    fun hsub => absurd hsub hc.started, fun _ => ?_⟩
  rw [hc.snapshots]
  exact h.started hs

/-- A root that was written changes where its snapshot is stored. -/
theorem RekeysVba.setRoot (h : RekeysVba a c) (hs : c.state ≠ .submitted)
    (pba : PhysicalBlockAddress) (hash : Hash) :
    RekeysVba a (c.setSnap { c.snap with pba := pba, hash := hash }) := by
  refine ⟨h.type, h.currGen, h.lastSecured, fun hsub => absurd hsub hs, fun _ idx => ?_⟩
  have hk := h.started hs idx
  by_cases hi : idx = c.snapshotIdx
  · simp only [Channel.setSnap, hi, Function.update_self]
    rw [hi] at hk
    exact ⟨hk.gen, hk.valid, hk.keep, hk.nrOfLeaves⟩
  · simp only [Channel.setSnap, Function.update_of_ne hi]
    exact hk

theorem RekeysVba.rekeyRootWritten (h : RekeysVba a c) (hs : c.state ≠ .submitted)
    (he : rekeyRootWritten sha c = .ok c') : RekeysVba a c' := by
  unfold Vbd.rekeyRootWritten at he
  dsimp only at he
  have hroot := h.setRoot hs (c.newPbas c.t1BlkIdx) (sha c.encodedBlk)
  split at he
  · cases he
    exact hroot.stays hs ⟨rfl, rfl, rfl, rfl, fun h => by cases h⟩
  · obtain ⟨u, -, he⟩ := Exec.bind_eq_ok.mp he
    split at he
    · cases he
      exact hroot.stays hs ⟨rfl, rfl, rfl, rfl, hs⟩
    · exact hroot.stays hs (.readAndRemember he rfl)

theorem execute_rekeyVba (h : c.request.type = .rekeyVba) :
    execute sha c = executeRekeyVba sha c := by
  simp only [execute, h]

theorem RekeysVba.execute (h : RekeysVba a c) (he : execute sha c = .ok c') : RekeysVba a c' := by
  rw [execute_rekeyVba h.type] at he
  unfold executeRekeyVba at he
  split at he
  · rename_i hs
    dsimp only at he
    split at he
    · cases he
    · have hst := Stays.readAndRemember he rfl
      refine ⟨hst.type.trans h.type, hst.currGen.trans h.currGen,
        hst.lastSecured.trans h.lastSecured, fun hsub => absurd hsub hst.started, fun _ idx => ?_⟩
      rw [hst.snapshots]
      change SameKind ((Snapshots.discardDisposableSnapshots c.request.snapshots
        c.request.currGen c.request.lastSecuredGeneration) idx) _
      rw [h.submitted hs, h.currGen, h.lastSecured]
      exact ⟨rfl, rfl, rfl, rfl⟩
  · rename_i hs
    exact h.stays (by rw [hs]; intro hh; cases hh) (.checked he .rekeyNodeRead)
  · rename_i hs
    exact h.stays (by rw [hs]; intro hh; cases hh) (.checked he .rekeyNodeRead)
  · rename_i hs
    refine h.stays (by rw [hs]; intro hh; cases hh) (.checked he fun he => ?_)
    split at he
    · cases he
      exact ⟨rfl, rfl, rfl, rfl, fun h => by cases h⟩
    · cases he
      exact ⟨rfl, rfl, rfl, rfl, fun h => by cases h⟩
  · rename_i hs
    exact h.stays (by rw [hs]; intro hh; cases hh)
      (.checked he fun he => .setArgsForAllocForRekeying he rfl)
  · rename_i hs
    refine h.stays (by rw [hs]; intro hh; cases hh) (.checked he fun he => ?_)
    cases he
    exact ⟨rfl, rfl, rfl, rfl, fun h => by cases h⟩
  · rename_i hs
    refine h.stays (by rw [hs]; intro hh; cases hh) (.checked he fun he => ?_)
    cases he
    exact ⟨rfl, rfl, rfl, rfl, fun h => by cases h⟩
  · rename_i hs
    refine h.stays (by rw [hs]; intro hh; cases hh) (.checked he fun he => ?_)
    cases he
    exact ⟨rfl, rfl, rfl, rfl, fun h => by cases h⟩
  · rename_i hs
    refine h.stays (by rw [hs]; intro hh; cases hh) (.checked he fun he => ?_)
    cases he
    exact ⟨rfl, rfl, rfl, rfl, fun h => by cases h⟩
  · rename_i hs
    refine h.stays (by rw [hs]; intro hh; cases hh) (.checked he fun he => ?_)
    cases he
    exact ⟨rfl, rfl, rfl, rfl, fun h => by cases h⟩
  · rename_i hs
    have hne : c.state ≠ .submitted := by rw [hs]; intro hh; cases hh
    unfold Channel.handleFailedGeneratedReq at he
    split at he
    · exact h.rekeyRootWritten hne he
    · cases he
      exact h.stays hne ⟨rfl, rfl, rfl, rfl, fun h => by cases h⟩
  · rename_i hs
    refine h.stays (by rw [hs]; intro hh; cases hh) (.checked he fun he => ?_)
    cases he
    exact ⟨rfl, rfl, rfl, rfl, fun h => by cases h⟩
  · cases he
    exact h

/-- What a re-encryption has made of the snapshots. -/
theorem sameKind_of_processes (ht : a.reqType = .rekeyVba)
    (h : Processes sha answers c (Request.create a) c') (hs : c'.state = .completed) :
    ∀ idx, SameKind (c'.request.snapshots idx) (keptSnapshots a idx) := by
  have hinv : RekeysVba a c' := by
    refine h.invariant ?_ (fun c c' hc he => hc.execute he) ?_
    · refine ⟨?_, ?_, ?_, fun _ => ?_, fun hne => absurd rfl hne⟩
      all_goals simp [Channel.submitRequest, Request.create, ht]
    · intro c c' op hc hs hreq hidx hs'
      refine hc.stays (by rw [hs]; intro hh; cases hh) ⟨by rw [hreq], by rw [hreq], by rw [hreq],
        by rw [hreq], by rw [hs']; intro hh; cases hh⟩
  exact hinv.started (by rw [hs]; intro hh; cases hh)

/-! ### Extension -/

/-- The arguments of the request stay, except for the blocks to use up. -/
structure SameArgs (c c' : Channel) : Prop where
  snapshots : c'.request.snapshots = c.request.snapshots
  type : c'.request.type = c.request.type
  currGen : c'.request.currGen = c.request.currGen
  lastSecured : c'.request.lastSecuredGeneration = c.request.lastSecuredGeneration

theorem SameArgs.refl (c : Channel) : SameArgs c c := ⟨rfl, rfl, rfl, rfl⟩

theorem SameArgs.allocPba {c₀ : Channel} {pba : PhysicalBlockAddress}
    (h : allocPbaFromResizingContingent c = .ok (pba, c')) (hc : SameArgs c₀ c) :
    SameArgs c₀ c' := by
  obtain ⟨u, -, h⟩ := Exec.bind_eq_ok.mp h
  cases h
  exact ⟨hc.snapshots, hc.type, hc.currGen, hc.lastSecured⟩

theorem SameArgs.addChild {c₀ : Channel} {lvl : Nat} {idx : Fin nrOfNodesPerBlk}
    (h : addChildAtCurrLvlAndChildIdx c lvl idx = .ok c') (hc : SameArgs c₀ c) :
    SameArgs c₀ c' := by
  obtain ⟨⟨pba, c₁⟩, hc₁, h⟩ := Exec.bind_eq_ok.mp h
  cases h
  have h₁ := SameArgs.allocPba hc₁ hc
  exact ⟨h₁.snapshots, h₁.type, h₁.currGen, h₁.lastSecured⟩

theorem SameArgs.addLeaves {c₀ : Channel} {idxs : List (Fin nrOfNodesPerBlk)}
    (h : addLeaves idxs c = .ok c') (hc : SameArgs c₀ c) : SameArgs c₀ c' := by
  induction idxs generalizing c with
  | nil =>
    cases h
    exact hc
  | cons idx idxs ih =>
    unfold Vbd.addLeaves at h
    split at h
    · cases h
      exact hc
    · obtain ⟨c₁, hc₁, h⟩ := Exec.bind_eq_ok.mp h
      have h₁ := SameArgs.addChild hc₁ hc
      exact ih h ⟨h₁.snapshots, h₁.type, h₁.currGen, h₁.lastSecured⟩

theorem SameArgs.addBranch {c₀ : Channel} {lvl : Nat} {idx : Fin nrOfNodesPerBlk}
    (h : addBranch c idx lvl = .ok c') (hc : SameArgs c₀ c) : SameArgs c₀ c' := by
  fun_induction Vbd.addBranch c idx lvl with
  | case1 c =>
    cases h
    exact hc
  | case2 c idx =>
    exact SameArgs.addLeaves h ⟨hc.snapshots, hc.type, hc.currGen, hc.lastSecured⟩
  | case3 c idx lvl hn =>
    cases h
    exact ⟨hc.snapshots, hc.type, hc.currGen, hc.lastSecured⟩
  | case4 c idx lvl hn ih =>
    obtain ⟨c₁, hc₁, h⟩ := Exec.bind_eq_ok.mp h
    exact ih c₁ h (SameArgs.addChild hc₁ ⟨hc.snapshots, hc.type, hc.currGen, hc.lastSecured⟩)

theorem SameArgs.addNewBranch {c₀ : Channel} {lvl : Nat} {idx : Fin nrOfNodesPerBlk}
    (h : addNewBranchToSnapUsingPbaContingent c lvl idx = .ok c') (hc : SameArgs c₀ c) :
    SameArgs c₀ c' := by
  unfold addNewBranchToSnapUsingPbaContingent at h
  dsimp only at h
  split at h
  · cases h
    exact ⟨hc.snapshots, hc.type, hc.currGen, hc.lastSecured⟩
  · exact SameArgs.addBranch h ⟨hc.snapshots, hc.type, hc.currGen, hc.lastSecured⟩

/-- The snapshots of a device that is extended: new ones are of the current
generation. -/
def Extended (a : CreateArgs) (snaps : Snapshots) : Prop :=
  ∀ idx, (snaps idx).valid = true → (snaps idx).gen = a.currentGen ∨
    ((keptSnapshots a idx).valid = true ∧ (snaps idx).gen = (keptSnapshots a idx).gen)

theorem Extended.update {snaps : Snapshots} (h : Extended a snaps) (i : SnapshotIndex)
    {s : Snapshot} (hs : s.gen = a.currentGen) : Extended a (Function.update snaps i s) := by
  intro idx hv
  by_cases hi : idx = i
  · rw [hi, Function.update_self]
    exact .inl hs
  · rw [Function.update_of_ne hi] at hv ⊢
    exact h idx hv

/-- A channel that extends the device. -/
structure ExtendsVbd (a : CreateArgs) (c : Channel) : Prop where
  type : c.request.type = .vbdExtensionStep
  currGen : c.request.currGen = a.currentGen
  lastSecured : c.request.lastSecuredGeneration = a.lastSecuredGeneration
  submitted : c.state = .submitted → c.request.snapshots = a.snapshots
  started : c.state ≠ .submitted → Extended a c.request.snapshots

theorem ExtendsVbd.stays (h : ExtendsVbd a c) (hs : c.state ≠ .submitted) (hc : SameArgs c c')
    (hs' : c'.state ≠ .submitted) : ExtendsVbd a c' := by
  refine ⟨hc.type.trans h.type, hc.currGen.trans h.currGen, hc.lastSecured.trans h.lastSecured,
    fun hsub => absurd hsub hs', fun _ => ?_⟩
  rw [hc.snapshots]
  exact h.started hs

theorem ExtendsVbd.checked (h : ExtendsVbd a c) (hs : c.state ≠ .submitted)
    (he : c.handleFailedGeneratedReq next = .ok c')
    (hnext : next = .ok c' → ExtendsVbd a c') : ExtendsVbd a c' := by
  unfold Channel.handleFailedGeneratedReq at he
  split at he
  · exact hnext he
  · cases he
    exact h.stays hs ⟨rfl, rfl, rfl, rfl⟩ fun h => by cases h

theorem SameArgs.setArgsForAllocForResizing {c₀ : Channel} (hc : SameArgs c₀ c) (minLvl : Nat) :
    SameArgs c₀ (setArgsForAllocForResizing c minLvl) ∧
      (Vbd.setArgsForAllocForResizing c minLvl).state ≠ .submitted := by
  unfold Vbd.setArgsForAllocForResizing
  split
  · exact ⟨⟨hc.snapshots, hc.type, hc.currGen, hc.lastSecured⟩, fun h => by cases h⟩
  · exact ⟨⟨hc.snapshots, hc.type, hc.currGen, hc.lastSecured⟩, fun h => by cases h⟩

theorem ExtendsVbd.nodeRead (h : ExtendsVbd a c) (hs : c.state ≠ .submitted)
    (he : extensionNodeRead sha c = .ok c') : ExtendsVbd a c' := by
  unfold extensionNodeRead at he
  dsimp only at he
  split at he
  · cases he
    exact h.stays hs ⟨rfl, rfl, rfl, rfl⟩ fun h => by cases h
  · split at he
    · have hst := Stays.readAndRemember he rfl
      exact h.stays hs ⟨hst.snapshots, hst.type, hst.currGen, hst.lastSecured⟩ hst.started
    · obtain ⟨c₁, hc₁, he⟩ := Exec.bind_eq_ok.mp he
      cases he
      obtain ⟨hsame, hstate⟩ := (SameArgs.addNewBranch hc₁
        (.refl c)).setArgsForAllocForResizing c.t1BlkIdx
      exact h.stays hs hsame hstate

/-- A new root is kept in a snapshot of the current generation. -/
theorem Extended.addNewRootLvl (he : addNewRootLvlToSnapUsingPbaContingent c = .ok c')
    (h : Extended a c.request.snapshots) (hcurr : c.request.currGen = a.currentGen) :
    Extended a c'.request.snapshots ∧ c'.request.type = c.request.type ∧
      c'.request.currGen = c.request.currGen ∧
      c'.request.lastSecuredGeneration = c.request.lastSecuredGeneration := by
  obtain ⟨u, -, he⟩ := Exec.bind_eq_ok.mp he
  obtain ⟨u, -, he⟩ := Exec.bind_eq_ok.mp he
  obtain ⟨idx, -, he⟩ := Exec.bind_eq_ok.mp he
  obtain ⟨⟨pba, c₁⟩, hc₁, he⟩ := Exec.bind_eq_ok.mp he
  cases he
  have hsame := SameArgs.allocPba hc₁ (.refl _)
  refine ⟨?_, hsame.type, hsame.currGen, hsame.lastSecured⟩
  change Extended a (Function.update c₁.request.snapshots c₁.snapshotIdx _)
  rw [hsame.snapshots]
  exact h.update _ (hsame.currGen.trans hcurr)

theorem ExtendsVbd.execute (h : ExtendsVbd a c) (he : execute sha c = .ok c') :
    ExtendsVbd a c' := by
  have hx : Vbd.execute sha c = executeVbdExtensionStep sha c := by
    simp only [Vbd.execute, h.type]
  rw [hx] at he
  unfold executeVbdExtensionStep at he
  split at he
  · rename_i hs
    dsimp only at he
    split at he
    · cases he
    · obtain ⟨u, -, he⟩ := Exec.bind_eq_ok.mp he
      have hkept : Extended a (Snapshots.discardDisposableSnapshots c.request.snapshots
          c.request.currGen c.request.lastSecuredGeneration) := by
        rw [h.submitted hs, h.currGen, h.lastSecured]
        exact fun idx hv => .inr ⟨hv, rfl⟩
      split at he
      · cases he
        exact ⟨h.type, h.currGen, h.lastSecured, fun hsub => (by cases hsub), fun _ => hkept⟩
      · obtain ⟨c₁, hc₁, he⟩ := Exec.bind_eq_ok.mp he
        obtain ⟨c₂, hc₂, he⟩ := Exec.bind_eq_ok.mp he
        cases he
        obtain ⟨hext, htype, hcurr, hlast⟩ := Extended.addNewRootLvl hc₁ hkept h.currGen
        have hsame := SameArgs.addNewBranch hc₂ (.refl c₁)
        refine ⟨hsame.type.trans (htype.trans h.type), hsame.currGen.trans (hcurr.trans h.currGen),
          hsame.lastSecured.trans (hlast.trans h.lastSecured), fun hsub => (by cases hsub),
          fun _ => ?_⟩
        change Extended a c₂.request.snapshots
        rw [hsame.snapshots]
        exact hext
  · rename_i hs
    have hne : c.state ≠ .submitted := by rw [hs]; intro hh; cases hh
    exact h.checked hne he (h.nodeRead hne)
  · rename_i hs
    have hne : c.state ≠ .submitted := by rw [hs]; intro hh; cases hh
    exact h.checked hne he (h.nodeRead hne)
  · rename_i hs
    have hne : c.state ≠ .submitted := by rw [hs]; intro hh; cases hh
    refine h.checked hne he fun he => ?_
    cases he
    exact h.stays hne ⟨rfl, rfl, rfl, rfl⟩ fun h => by cases h
  · rename_i hs
    have hne : c.state ≠ .submitted := by rw [hs]; intro hh; cases hh
    refine h.checked hne he fun he => ?_
    cases he
    exact h.stays hne ⟨rfl, rfl, rfl, rfl⟩ fun h => by cases h
  · rename_i hs
    have hne : c.state ≠ .submitted := by rw [hs]; intro hh; cases hh
    refine h.checked hne he fun he => ?_
    obtain ⟨idx, -, he⟩ := Exec.bind_eq_ok.mp he
    cases he
    exact ⟨h.type, h.currGen, h.lastSecured, fun hsub => (by cases hsub),
      fun _ => (h.started hne).update _ h.currGen⟩
  · cases he
    exact h

/-- What an extension has made of the snapshots. -/
theorem extended_of_processes (ht : a.reqType = .vbdExtensionStep)
    (h : Processes sha answers c (Request.create a) c') (hs : c'.state = .completed) :
    Extended a c'.request.snapshots := by
  have hinv : ExtendsVbd a c' := by
    refine h.invariant ?_ (fun c c' hc he => hc.execute he) ?_
    · refine ⟨?_, ?_, ?_, fun _ => ?_, fun hne => absurd rfl hne⟩
      all_goals simp [Channel.submitRequest, Request.create, ht]
    · intro c c' op hc hs hreq hidx hs'
      refine hc.stays (by rw [hs]; intro hh; cases hh) ⟨by rw [hreq], by rw [hreq], by rw [hreq],
        by rw [hreq]⟩ (by rw [hs']; intro hh; cases hh)
  exact hinv.started (by rw [hs]; intro hh; cases hh)

end Resizing

end Vbd

end Genode.Tresor
