import Genode.Tresor.OnDisc

/-!
# OnDiscFormat — what is written is what is read

Reading and writing a record match field by field. So what was encoded is
decoded again, and a block that can be decoded and has zeros between its
fields is the one that encoding gives.
-/

namespace Genode.Tresor.OnDisc

open Genode.Lib

/-! ## Reading -/

section Reads

variable {α β : Type} {n n' : Nat} {enc : α → List UInt8} {enc' : β → List UInt8}
  {clean clean' : List UInt8 → Prop}

@[simp] theorem ahead_skip (s : BlockScanner) (n : Nat) : (s.skip n).ahead = s.ahead.drop n := by
  rw [BlockScanner.ahead, BlockScanner.ahead, BlockScanner.skip, List.drop_drop]

theorem skip_skip (s : BlockScanner) (n n' : Nat) : (s.skip n).skip n' = s.skip (n + n') := by
  simp only [BlockScanner.skip, Nat.add_assoc]

theorem fits_of_ahead {s : BlockScanner} {bytes rest : List UInt8} (hpos : 0 < bytes.length)
    (h : s.ahead = bytes ++ rest) : s.offset + bytes.length ≤ blockSize := by
  have hlen := congrArg List.length h
  rw [BlockScanner.ahead, List.length_drop, s.blk.length_eq, List.length_append] at hlen
  omega

/-- The scanner program `m` reads the values that meet `dom` and are written
as `enc`. Where it comes across bytes that it skips, `clean` tells that they
are zero. -/
structure Reads (m : Scan α) (dom : α → Prop) (n : Nat) (enc : α → List UInt8)
    (clean : List UInt8 → Prop) : Prop where
  length : ∀ a, dom a → (enc a).length = n
  reads : ∀ (s : BlockScanner) (a : α) (rest : List UInt8), dom a → s.ahead = enc a ++ rest →
    m s = .ok (a, s.skip n)
  back : ∀ (s s' : BlockScanner) (a : α), m s = .ok (a, s') →
    s' = s.skip n ∧ dom a ∧ (clean s.ahead → enc a = s.ahead.take n)

theorem scan_bind_eq_ok {m : Scan α} {k : α → Scan β} {s s' : BlockScanner} {b : β} :
    (m >>= k) s = .ok (b, s') ↔ ∃ a s₁, m s = .ok (a, s₁) ∧ k a s₁ = .ok (b, s') := by
  change (m s >>= fun p => k p.1 p.2) = .ok (b, s') ↔ _
  rw [Exec.bind_eq_ok]
  constructor
  · rintro ⟨⟨a, s₁⟩, h, hk⟩
    exact ⟨a, s₁, h, hk⟩
  · rintro ⟨a, s₁, h, hk⟩
    exact ⟨(a, s₁), h, hk⟩

/-- One field and what comes after it. -/
theorem Reads.bind {m : Scan α} {k : α → Scan β} {dom : β → Prop} (p : β → α)
    (hm : Reads m (fun _ => True) n enc clean)
    (hk : ∀ x, Reads (k x) (fun b => dom b ∧ p b = x) n' enc' clean') :
    Reads (m >>= k) dom (n + n') (fun b => enc (p b) ++ enc' b)
      (fun l => clean l ∧ clean' (l.drop n)) where
  length b hb := by
    rw [List.length_append, hm.length _ trivial, (hk (p b)).length b ⟨hb, rfl⟩]
  reads s b rest hb h := by
    rw [List.append_assoc] at h
    have h₁ := hm.reads s (p b) _ trivial h
    have hahead : (s.skip n).ahead = enc' b ++ rest := by
      rw [ahead_skip, h, List.drop_left' (hm.length _ trivial)]
    have h₂ := (hk (p b)).reads (s.skip n) b rest ⟨hb, rfl⟩ hahead
    rw [skip_skip] at h₂
    exact scan_bind_eq_ok.mpr ⟨p b, s.skip n, h₁, h₂⟩
  back s s' b h := by
    obtain ⟨a, s₁, h₁, h₂⟩ := scan_bind_eq_ok.mp h
    obtain ⟨rfl, -, henc⟩ := hm.back s s₁ a h₁
    obtain ⟨hs', ⟨hdom, rfl⟩, henc'⟩ := (hk a).back _ s' b h₂
    refine ⟨by rw [hs', skip_skip], hdom, fun ⟨hc, hc'⟩ => ?_⟩
    rw [ahead_skip] at henc'
    rw [henc hc, henc' hc', List.take_add]

theorem Reads.pure {b₀ : β} {dom : β → Prop} (hdom : ∀ b, dom b ↔ b = b₀) :
    Reads (Pure.pure b₀) dom 0 (fun _ => []) (fun _ => True) where
  length _ _ := rfl
  reads s b rest hb _ := by
    rw [(hdom b).mp hb]
    rfl
  back s s' b hs := by
    cases hs
    exact ⟨rfl, (hdom _).mpr rfl, fun _ => rfl⟩

/-- Other words for the same format. -/
theorem Reads.of_eq {m : Scan α} {dom : α → Prop} {enc₁ : α → List UInt8}
    (h : Reads m dom n enc clean) (hn : n = n') (henc : ∀ a, dom a → enc a = enc₁ a)
    (hclean : ∀ l, clean' l → clean l) : Reads m dom n' enc₁ clean' where
  length a ha := by rw [← henc a ha, h.length a ha, hn]
  reads s a rest ha hs := by
    rw [← henc a ha] at hs
    rw [h.reads s a rest ha hs, hn]
  back s s' a hs := by
    obtain ⟨hs', ha, hb⟩ := h.back s s' a hs
    rw [← hn]
    exact ⟨hs', ha, fun hc => by rw [← henc a ha, hb (hclean _ hc)]⟩

/-- Plain bytes, read as values of some type. -/
theorem Reads.copy {f : List UInt8 → α} (hpos : 0 < n) (hlen : ∀ a, (enc a).length = n)
    (hf : ∀ a, f (enc a) = a) (henc : ∀ l, l.length = n → enc (f l) = l) :
    Reads (do let bytes ← fetchCopy n; Pure.pure (f bytes)) (fun _ => True) n enc
      (fun _ => True) where
  length a _ := hlen a
  reads s a rest _ h := by
    have hfits : s.offset + n ≤ blockSize := by
      rw [← hlen a] at hpos ⊢
      exact fits_of_ahead hpos h
    have hcopy : fetchCopy n s = .ok (s.ahead.take n, s.skip n) := by
      rw [fetchCopy, if_pos hfits]
    refine scan_bind_eq_ok.mpr ⟨_, _, hcopy, ?_⟩
    rw [h, List.take_left' (hlen a), hf]
    rfl
  back s s' a h := by
    obtain ⟨bytes, s₁, h₁, h₂⟩ := scan_bind_eq_ok.mp h
    unfold fetchCopy at h₁
    split at h₁
    · rename_i hfits
      cases h₁
      cases h₂
      refine ⟨rfl, trivial, fun _ => ?_⟩
      rw [henc]
      rw [List.length_take, BlockScanner.ahead, List.length_drop, s.blk.length_eq]
      omega
    · cases h₁

theorem Reads.skipBytes (hpos : 0 < n) :
    Reads (skipBytes n) (fun _ => True) n (fun _ => List.replicate n 0)
      (fun l => l.take n = List.replicate n 0) where
  length _ _ := List.length_replicate
  reads s a rest _ h := by
    have hfits := fits_of_ahead (by rwa [List.length_replicate]) h
    rw [List.length_replicate] at hfits
    rw [OnDisc.skipBytes, if_pos hfits]
  back s s' a h := by
    unfold OnDisc.skipBytes at h
    split at h
    · cases h
      exact ⟨rfl, trivial, fun hc => hc.symm⟩
    · cases h

/-- A conversion that may fail and reads nothing. -/
theorem Reads.convert {f : α → Scan β} {g : β → α} (hf : ∀ b s, f (g b) s = .ok (b, s))
    (hg : ∀ a s s' b, f a s = .ok (b, s') → s' = s ∧ g b = a) (a : α) :
    Reads (f a) (fun b => True ∧ g b = a) 0 (fun _ => []) (fun _ => True) where
  length _ _ := rfl
  reads s b rest hb _ := by
    rw [← hb.2]
    exact hf b s
  back s s' b h := by
    obtain ⟨rfl, hb⟩ := hg a s s' b h
    exact ⟨rfl, ⟨trivial, hb⟩, fun _ => rfl⟩

/-- The elements of an array are clean. -/
def cleanArray (clean : List UInt8 → Prop) (size n : Nat) (l : List UInt8) : Prop :=
  ∀ i < n, clean (l.drop (i * size))

theorem Reads.array {m : Scan α} (h : Reads m (fun _ => True) n enc clean) (len : Nat) :
    Reads (fetchArray m len) (fun _ => True) (len * n) (fun f => (List.ofFn f).flatMap enc)
      (cleanArray clean n len) := by
  induction len with
  | zero =>
    refine Reads.of_eq (.pure fun f => ⟨fun _ => funext fun i => i.elim0, fun _ => trivial⟩)
      (Nat.zero_mul n).symm (fun _ _ => rfl) fun _ _ => trivial
  | succ len ih =>
    have hrest : ∀ x : α, Reads (do let rest ← fetchArray m len; Pure.pure (Fin.cons x rest))
        (fun f : Fin (len + 1) → α => True ∧ f 0 = x) (len * n + 0)
        (fun f => (List.ofFn fun i : Fin len => f i.succ).flatMap enc ++ [])
        (fun l => cleanArray clean n len l ∧ True) := by
      intro x
      refine .bind (fun (f : Fin (len + 1) → α) (i : Fin len) => f i.succ) ih fun rest =>
        .pure fun f => ?_
      constructor
      · rintro ⟨⟨-, rfl⟩, rfl⟩
        exact (Fin.cons_self_tail f).symm
      · rintro rfl
        exact ⟨⟨trivial, rfl⟩, rfl⟩
    refine Reads.of_eq (.bind (fun f : Fin (len + 1) → α => f 0) h hrest) ?_ (fun f _ => ?_) fun l hl => ?_
    · rw [Nat.add_zero, Nat.succ_mul, Nat.add_comm]
    · rw [List.append_nil, List.ofFn_succ, List.flatMap_cons]
    · refine ⟨?_, fun i hi => ?_, trivial⟩
      · have h₀ := hl 0 (Nat.succ_pos len)
        rwa [Nat.zero_mul, List.drop_zero] at h₀
      · rw [List.drop_drop, Nat.add_comm, ← Nat.succ_mul]
        exact hl (i + 1) (Nat.succ_lt_succ hi)

end Reads

/-! ### Fields -/

section Fields

variable {β : Type}

theorem reads_uint8 : Reads fetchUInt8 (fun _ => True) 1 (fun b => [b]) (fun _ => True) := by
  refine .copy Nat.one_pos (fun _ => rfl) (fun _ => rfl) fun l hl => ?_
  obtain ⟨b, rfl⟩ := List.length_eq_one_iff.mp hl
  rfl

theorem reads_uint32 :
    Reads fetchUInt32 (fun _ => True) 4 (fun x => toBytes 4 x.toNat) (fun _ => True) := by
  refine .copy (by decide) (fun _ => length_toBytes _ _) (fun x => ?_) fun l hl => ?_
  · rw [ofBytes_toBytes 4 _ x.toNat_lt, UInt32.ofNat_toNat]
  · have hlt : ofBytes l < 2 ^ 32 := by
      have hlt := ofBytes_lt l
      rwa [hl, show 256 ^ 4 = 2 ^ 32 by decide] at hlt
    rw [UInt32.toNat_ofNat', Nat.mod_eq_of_lt hlt, ← hl, toBytes_ofBytes]

theorem reads_uint64 :
    Reads fetchUInt64 (fun _ => True) 8 (fun x => toBytes 8 x.toNat) (fun _ => True) := by
  refine .copy (by decide) (fun _ => length_toBytes _ _) (fun x => ?_) fun l hl => ?_
  · rw [ofBytes_toBytes 8 _ x.toNat_lt, UInt64.ofNat_toNat]
  · have hlt : ofBytes l < 2 ^ 64 := by
      have hlt := ofBytes_lt l
      rwa [hl, show 256 ^ 8 = 2 ^ 64 by decide] at hlt
    rw [UInt64.toNat_ofNat', Nat.mod_eq_of_lt hlt, ← hl, toBytes_ofBytes]

theorem reads_bytes :
    Reads fetchBytes (fun _ => True) 32 (fun f => List.ofFn f) (fun _ => True) := by
  refine .copy (by decide) (fun _ => List.length_ofFn) (fun f => ?_) fun l hl => ?_
  · funext i
    have hi : i.val < (List.ofFn f).length := by
      rw [List.length_ofFn]
      exact i.isLt
    rw [List.getD_eq_getElem?_getD, List.getElem?_eq_getElem hi, Option.getD_some,
      List.getElem_ofFn]
  · apply List.ext_getElem
    · rw [List.length_ofFn, hl]
    · intro i h₁ h₂
      rw [List.getElem_ofFn, List.getD_eq_getElem?_getD, List.getElem?_eq_getElem h₂,
        Option.getD_some]

theorem reads_hash :
    Reads fetchHash (fun _ => True) 32 (fun h => List.ofFn h.bytes) (fun _ => True) := by
  refine Reads.of_eq (.bind Hash.bytes reads_bytes fun x => .pure fun h => ?_) rfl
    (fun _ _ => List.append_nil _) fun _ _ => ⟨trivial, trivial⟩
  constructor
  · rintro ⟨-, rfl⟩
    rfl
  · rintro rfl
    exact ⟨trivial, rfl⟩

theorem reads_bool :
    Reads fetchBool (fun _ => True) 1 (fun b => [encodeBool b]) (fun _ => True) := by
  have hconv : ∀ val, Reads (decodeBool val) (fun b => True ∧ encodeBool b = val) 0
      (fun _ => []) (fun _ => True) := by
    refine .convert (fun b s => ?_) fun val s s' b h => ?_
    · cases b <;> rfl
    · unfold decodeBool at h
      split at h
      · rename_i hval
        cases h
        exact ⟨rfl, hval.symm⟩
      · split at h
        · rename_i hval
          cases h
          exact ⟨rfl, hval.symm⟩
        · cases h
  exact Reads.of_eq (.bind encodeBool reads_uint8 hconv) rfl (fun _ _ => rfl)
    fun _ _ => ⟨trivial, trivial⟩

theorem encodeState_of_decodeState {val : UInt8} {state : SuperblockState}
    (h : SuperblockState.decodeState val = some state) : state.encodeState = val := by
  unfold SuperblockState.decodeState at h
  split at h
  · rename_i hval
    cases h
    exact hval.symm
  · split at h
    · rename_i hval
      cases h
      exact hval.symm
    · split at h
      · rename_i hval
        cases h
        exact hval.symm
      · split at h
        · rename_i hval
          cases h
          exact hval.symm
        · split at h
          · rename_i hval
            cases h
            exact hval.symm
          · cases h

theorem reads_state : Reads fetchState (fun _ => True) 1
    (fun state => [state.encodeState]) (fun _ => True) := by
  have hconv : ∀ val, Reads (decodeState val) (fun b => True ∧ b.encodeState = val) 0
      (fun _ => []) (fun _ => True) := by
    refine .convert (fun state s => ?_) fun val s s' state h => ?_
    · simp only [decodeState, SuperblockState.decodeState_encodeState]
    · unfold decodeState at h
      split at h
      · rename_i hval
        cases h
        exact ⟨rfl, encodeState_of_decodeState hval⟩
      · cases h
  exact Reads.of_eq (.bind SuperblockState.encodeState reads_uint8 hconv) rfl (fun _ _ => rfl)
    fun _ _ => ⟨trivial, trivial⟩

end Fields

/-! ### Records -/

namespace Key

/-- The bytes of a key. -/
def bytes (key : Key) : List UInt8 := List.ofFn key.value ++ (toBytes 4 key.id.toNat ++ [])

theorem reads : Reads decodeFromBlk (fun _ => True) 36 bytes (fun _ => True) := by
  refine Reads.of_eq (.bind Key.value reads_bytes fun value => .bind Key.id reads_uint32 fun id =>
    .pure fun key => ?_) rfl (fun _ _ => rfl) fun _ _ => ⟨trivial, trivial, trivial⟩
  constructor
  · rintro ⟨⟨-, rfl⟩, rfl⟩
    rfl
  · rintro rfl
    exact ⟨⟨trivial, rfl⟩, rfl⟩

end Key

namespace Type1Node

/-- The bytes of a node. -/
def bytes (node : Type1Node) : List UInt8 :=
  toBytes 8 node.pba.toNat ++ (toBytes 8 node.gen.toNat ++ (List.ofFn node.hash.bytes ++
    (List.replicate 16 0 ++ [])))

/-- The bytes after the fields are zero. -/
def Clean (l : List UInt8) : Prop := (l.drop 48).take 16 = List.replicate 16 0

theorem reads : Reads decodeFromBlk (fun _ => True) 64 bytes Clean := by
  refine Reads.of_eq (.bind Type1Node.pba reads_uint64 fun pba =>
    .bind Type1Node.gen reads_uint64 fun gen => .bind Type1Node.hash reads_hash fun hash =>
    .bind (fun _ => ()) (.skipBytes (by decide)) fun _ => .pure fun node => ?_) rfl
    (fun _ _ => rfl) fun l hl => ⟨trivial, trivial, trivial, ?_, trivial⟩
  · constructor
    · rintro ⟨⟨⟨⟨-, rfl⟩, rfl⟩, rfl⟩, -⟩
      rfl
    · rintro rfl
      exact ⟨⟨⟨⟨trivial, rfl⟩, rfl⟩, rfl⟩, rfl⟩
  · rw [List.drop_drop, List.drop_drop]
    exact hl

end Type1Node

namespace Type2Node

def bytes (node : Type2Node) : List UInt8 :=
  toBytes 8 node.pba.toNat ++ (toBytes 8 node.lastVba.toNat ++ (toBytes 8 node.allocGen.toNat ++
    (toBytes 8 node.freeGen.toNat ++ (toBytes 4 node.lastKeyId.toNat ++
      ([encodeBool node.reserved] ++ (List.replicate 27 0 ++ []))))))

def Clean (l : List UInt8) : Prop := (l.drop 37).take 27 = List.replicate 27 0

theorem reads : Reads decodeFromBlk (fun _ => True) 64 bytes Clean := by
  refine Reads.of_eq (.bind Type2Node.pba reads_uint64 fun pba =>
    .bind Type2Node.lastVba reads_uint64 fun lastVba =>
    .bind Type2Node.allocGen reads_uint64 fun allocGen =>
    .bind Type2Node.freeGen reads_uint64 fun freeGen =>
    .bind Type2Node.lastKeyId reads_uint32 fun lastKeyId =>
    .bind Type2Node.reserved reads_bool fun reserved =>
    .bind (fun _ => ()) (.skipBytes (by decide)) fun _ => .pure fun node => ?_) rfl
    (fun _ _ => rfl) fun l hl =>
      ⟨trivial, trivial, trivial, trivial, trivial, trivial, ?_, trivial⟩
  · constructor
    · rintro ⟨⟨⟨⟨⟨⟨⟨-, rfl⟩, rfl⟩, rfl⟩, rfl⟩, rfl⟩, rfl⟩, -⟩
      rfl
    · rintro rfl
      exact ⟨⟨⟨⟨⟨⟨⟨trivial, rfl⟩, rfl⟩, rfl⟩, rfl⟩, rfl⟩, rfl⟩, rfl⟩
  · simp only [List.drop_drop]
    exact hl

end Type2Node

namespace Snapshot

def bytes (snap : Snapshot) : List UInt8 :=
  List.ofFn snap.hash.bytes ++ (toBytes 8 snap.pba.toNat ++ (toBytes 8 snap.gen.toNat ++
    (toBytes 8 snap.nrOfLeaves.toNat ++ (toBytes 4 snap.maxLevel.toNat ++
      ([encodeBool snap.valid] ++ (toBytes 4 snap.id.toNat ++ ([encodeBool snap.keep] ++
        (List.replicate 6 0 ++ []))))))))

def Clean (l : List UInt8) : Prop := (l.drop 66).take 6 = List.replicate 6 0

theorem reads : Reads decodeFromBlk (fun _ => True) 72 bytes Clean := by
  refine Reads.of_eq (.bind Snapshot.hash reads_hash fun hash =>
    .bind Snapshot.pba reads_uint64 fun pba => .bind Snapshot.gen reads_uint64 fun gen =>
    .bind Snapshot.nrOfLeaves reads_uint64 fun nrOfLeaves =>
    .bind Snapshot.maxLevel reads_uint32 fun maxLevel =>
    .bind Snapshot.valid reads_bool fun valid => .bind Snapshot.id reads_uint32 fun id =>
    .bind Snapshot.keep reads_bool fun keep =>
    .bind (fun _ => ()) (.skipBytes (by decide)) fun _ => .pure fun snap => ?_) rfl
    (fun _ _ => rfl) fun l hl =>
      ⟨trivial, trivial, trivial, trivial, trivial, trivial, trivial, trivial, ?_, trivial⟩
  · constructor
    · rintro ⟨⟨⟨⟨⟨⟨⟨⟨⟨-, rfl⟩, rfl⟩, rfl⟩, rfl⟩, rfl⟩, rfl⟩, rfl⟩, rfl⟩, -⟩
      rfl
    · rintro rfl
      exact ⟨⟨⟨⟨⟨⟨⟨⟨⟨trivial, rfl⟩, rfl⟩, rfl⟩, rfl⟩, rfl⟩, rfl⟩, rfl⟩, rfl⟩, rfl⟩
  · simp only [List.drop_drop]
    exact hl

end Snapshot

namespace Superblock

def bytes (sb : Superblock) : List UInt8 :=
  [sb.state.encodeState] ++
  (toBytes 8 sb.rekeyingVba.toNat ++
  (toBytes 8 sb.resizingNrOfPbas.toNat ++
  (toBytes 8 sb.resizingNrOfLeaves.toNat ++
  (Key.bytes sb.previousKey ++
  (Key.bytes sb.currentKey ++
  ((List.ofFn sb.snapshots).flatMap Snapshot.bytes ++
  (toBytes 8 sb.lastSecuredGeneration.toNat ++
  (toBytes 4 sb.currSnap.toNat ++
  (toBytes 4 sb.degree.toNat ++
  (toBytes 8 sb.firstPba.toNat ++
  (toBytes 8 sb.nrOfPbas.toNat ++
  (toBytes 8 sb.freeGen.toNat ++
  (toBytes 8 sb.freeNumber.toNat ++
  (List.ofFn sb.freeHash.bytes ++
  (toBytes 4 sb.freeMaxLevel.toNat ++
  (toBytes 4 sb.freeDegree.toNat ++
  (toBytes 8 sb.freeLeaves.toNat ++
  (toBytes 8 sb.metaGen.toNat ++
  (toBytes 8 sb.metaNumber.toNat ++
  (List.ofFn sb.metaHash.bytes ++
  (toBytes 4 sb.metaMaxLevel.toNat ++
  (toBytes 4 sb.metaDegree.toNat ++
  (toBytes 8 sb.metaLeaves.toNat ++
  (List.replicate 383 0 ++ []))))))))))))))))))))))))

/-- The bytes between the fields and after them are zero. -/
def Clean (l : List UInt8) : Prop :=
  cleanArray Snapshot.Clean 72 maxNrOfSnapshots (l.drop 97) ∧
    (l.drop 3713).take 383 = List.replicate 383 0

theorem reads : Reads fetch (fun _ => True) blockSize bytes Clean := by
  refine Reads.of_eq (
    .bind Superblock.state reads_state fun state =>
    .bind Superblock.rekeyingVba reads_uint64 fun rekeyingVba =>
    .bind Superblock.resizingNrOfPbas reads_uint64 fun resizingNrOfPbas =>
    .bind Superblock.resizingNrOfLeaves reads_uint64 fun resizingNrOfLeaves =>
    .bind Superblock.previousKey Key.reads fun previousKey =>
    .bind Superblock.currentKey Key.reads fun currentKey =>
    .bind Superblock.snapshots (Snapshot.reads.array maxNrOfSnapshots) fun snapshots =>
    .bind Superblock.lastSecuredGeneration reads_uint64 fun lastSecuredGeneration =>
    .bind Superblock.currSnap reads_uint32 fun currSnap =>
    .bind Superblock.degree reads_uint32 fun degree =>
    .bind Superblock.firstPba reads_uint64 fun firstPba =>
    .bind Superblock.nrOfPbas reads_uint64 fun nrOfPbas =>
    .bind Superblock.freeGen reads_uint64 fun freeGen =>
    .bind Superblock.freeNumber reads_uint64 fun freeNumber =>
    .bind Superblock.freeHash reads_hash fun freeHash =>
    .bind Superblock.freeMaxLevel reads_uint32 fun freeMaxLevel =>
    .bind Superblock.freeDegree reads_uint32 fun freeDegree =>
    .bind Superblock.freeLeaves reads_uint64 fun freeLeaves =>
    .bind Superblock.metaGen reads_uint64 fun metaGen =>
    .bind Superblock.metaNumber reads_uint64 fun metaNumber =>
    .bind Superblock.metaHash reads_hash fun metaHash =>
    .bind Superblock.metaMaxLevel reads_uint32 fun metaMaxLevel =>
    .bind Superblock.metaDegree reads_uint32 fun metaDegree =>
    .bind Superblock.metaLeaves reads_uint64 fun metaLeaves =>
    .bind (fun _ => ()) (.skipBytes (by decide)) fun _ => .pure fun sb => ?_) rfl (fun _ _ => rfl)
    fun l hl => ⟨trivial, trivial, trivial, trivial, trivial, trivial, ?_, trivial, trivial,
      trivial, trivial, trivial, trivial, trivial, trivial, trivial, trivial, trivial, trivial,
      trivial, trivial, trivial, trivial, trivial, ?_, trivial⟩
  · simp only [Superblock.ext_iff, true_and, and_true, and_assoc]
  · simp only [List.drop_drop]
    exact hl.1
  · simp only [List.drop_drop]
    exact hl.2

end Superblock

/-! ## Writing -/

section Writes

variable {α : Type}

/-- The generator program `m` writes the given bytes. -/
def Writes (m : Generate) (bytes : List UInt8) : Prop :=
  ∀ g : BlockGenerator, g.offset + bytes.length ≤ blockSize → ∃ g', m g = .ok ((), g') ∧
    g'.offset = g.offset + bytes.length ∧
    g'.blk.bytes.take g'.offset = g.blk.bytes.take g.offset ++ bytes

theorem Writes.of_eq {m : Generate} {bytes bytes' : List UInt8} (h : Writes m bytes)
    (he : bytes = bytes') : Writes m bytes' := he ▸ h

theorem Writes.bind {m m' : Generate} {bytes bytes' : List UInt8} (hm : Writes m bytes)
    (hm' : Writes m' bytes') : Writes (do m; m') (bytes ++ bytes') := by
  intro g hg
  rw [List.length_append] at hg
  obtain ⟨g₁, h₁, ho₁, hb₁⟩ := hm g (by omega)
  obtain ⟨g₂, h₂, ho₂, hb₂⟩ := hm' g₁ (by omega)
  refine ⟨g₂, ?_, ?_, ?_⟩
  · change (m g >>= fun p => m' p.2) = _
    rw [h₁]
    exact h₂
  · rw [ho₂, ho₁, List.length_append, Nat.add_assoc]
  · rw [hb₂, hb₁, List.append_assoc]

theorem Writes.copy (bytes : List UInt8) : Writes (appendCopy bytes) bytes := by
  intro g hg
  refine ⟨_, dif_pos hg, rfl, ?_⟩
  have hlen : (g.blk.bytes.take g.offset ++ bytes).length = g.offset + bytes.length := by
    rw [List.length_append, List.length_take, g.blk.length_eq, Nat.min_eq_left (by omega)]
  exact List.take_left' hlen

theorem Writes.uint8 (x : UInt8) : Writes (appendUInt8 x) [x] := .copy _

theorem Writes.uint32 (x : UInt32) : Writes (appendUInt32 x) (toBytes 4 x.toNat) := .copy _

theorem Writes.uint64 (x : UInt64) : Writes (appendUInt64 x) (toBytes 8 x.toNat) := .copy _

theorem Writes.bytes (f : Fin 32 → UInt8) : Writes (appendBytes f) (List.ofFn f) := .copy _

theorem Writes.hash (h : Hash) : Writes (appendHash h) (List.ofFn h.bytes) := .copy _

theorem Writes.bool (b : Bool) : Writes (appendBool b) [encodeBool b] := .copy _

theorem Writes.zeros (n : Nat) : Writes (appendZeroBytes n) (List.replicate n 0 ++ []) := by
  rw [List.append_nil]
  exact .copy _

theorem Writes.forM {append : α → Generate} {enc : α → List UInt8}
    (h : ∀ a, Writes (append a) (enc a)) (l : List α) : Writes (l.forM append) (l.flatMap enc) := by
  induction l with
  | nil =>
    intro g _
    exact ⟨g, rfl, rfl, (List.append_nil _).symm⟩
  | cons a l ih =>
    rw [List.flatMap_cons]
    exact .bind (h a) ih

theorem Writes.array {append : α → Generate} {enc : α → List UInt8}
    (h : ∀ a, Writes (append a) (enc a)) {n : Nat} (f : Fin n → α) :
    Writes (appendArray append f) ((List.ofFn f).flatMap enc) := .forM h _

end Writes

theorem Key.writes (key : Key) : Writes (Key.encodeToBlk key) (Key.bytes key) :=
  .of_eq (.bind (.bytes _) (.uint32 _)) (by rw [Key.bytes, List.append_nil])

theorem Type1Node.writes (node : Type1Node) :
    Writes (Type1Node.encodeToBlk node) (Type1Node.bytes node) :=
  .bind (.uint64 _) <| .bind (.uint64 _) <| .bind (.hash _) <| .zeros 16

theorem Type2Node.writes (node : Type2Node) :
    Writes (Type2Node.encodeToBlk node) (Type2Node.bytes node) :=
  .bind (.uint64 _) <| .bind (.uint64 _) <| .bind (.uint64 _) <| .bind (.uint64 _) <|
    .bind (.uint32 _) <| .bind (.bool _) <| .zeros 27

theorem Snapshot.writes (snap : Snapshot) :
    Writes (Snapshot.encodeToBlk snap) (Snapshot.bytes snap) :=
  .bind (.hash _) <| .bind (.uint64 _) <| .bind (.uint64 _) <| .bind (.uint64 _) <|
    .bind (.uint32 _) <| .bind (.bool _) <| .bind (.uint32 _) <| .bind (.bool _) <| .zeros 6

theorem Superblock.writes (sb : Superblock) : Writes sb.append sb.bytes :=
  .bind (.uint8 _) <| .bind (.uint64 _) <| .bind (.uint64 _) <| .bind (.uint64 _) <|
    .bind (Key.writes _) <| .bind (Key.writes _) <| .bind (.array Snapshot.writes _) <|
    .bind (.uint64 _) <| .bind (.uint32 _) <| .bind (.uint32 _) <| .bind (.uint64 _) <|
    .bind (.uint64 _) <| .bind (.uint64 _) <| .bind (.uint64 _) <| .bind (.hash _) <|
    .bind (.uint32 _) <| .bind (.uint32 _) <| .bind (.uint64 _) <| .bind (.uint64 _) <|
    .bind (.uint64 _) <| .bind (.hash _) <| .bind (.uint32 _) <| .bind (.uint32 _) <|
    .bind (.uint64 _) <| .zeros 383

/-! ## Whole blocks -/

section Blocks

variable {α : Type} {fetch : Scan α} {append : α → Generate} {enc : α → List UInt8}
  {clean : List UInt8 → Prop}

theorem encodeToBlk_eq {m : Generate} {bytes : List UInt8} (hw : Writes m bytes)
    (hlen : bytes.length = blockSize) (blk : Block) :
    encodeToBlk m blk = .ok ⟨bytes, hlen⟩ := by
  obtain ⟨g, hg, ho, hb⟩ := hw { blk := blk } (by rw [hlen]; exact (Nat.zero_add _).le)
  rw [hlen] at ho
  have hoff : g.offset = blockSize := ho.trans (Nat.zero_add _)
  have hbytes : g.blk.bytes = bytes := by
    rw [hoff, List.take_of_length_le g.blk.length_eq.le, List.take_zero, List.nil_append] at hb
    exact hb
  rw [encodeToBlk, hg, Exec.ok_bind]
  dsimp only
  rw [decide_eq_true hoff, Exec.assert_true, Exec.ok_bind]
  exact congrArg Except.ok (Block.ext hbytes)

theorem decodeFromBlk_eq_ok {blk : Block} {a : α} : decodeFromBlk fetch blk = .ok a ↔
    ∃ s, fetch { blk := blk } = .ok (a, s) ∧ s.offset = blockSize := by
  rw [decodeFromBlk, Exec.bind_eq_ok]
  constructor
  · rintro ⟨⟨a', s⟩, hs, h⟩
    obtain ⟨u, hassert, h⟩ := Exec.bind_eq_ok.mp h
    cases h
    exact ⟨s, hs, of_decide_eq_true (Exec.assert_eq_ok.mp hassert)⟩
  · rintro ⟨s, hs, ho⟩
    refine ⟨(a, s), hs, ?_⟩
    dsimp only
    rw [decide_eq_true ho, Exec.assert_true, Exec.ok_bind]
    rfl

/-- Encoding and decoding are inverse to each other, up to the bytes that
`padding` tells to be skipped. Each comes to the end of the block. -/
structure RoundTrips (encode : α → Block → Exec Block) (decode : Block → Exec α)
    (padding : Nat → Prop) : Prop where
  decode_encode : ∀ (a : α) (blk : Block), ∃ blk', encode a blk = .ok blk' ∧ decode blk' = .ok a
  encode_decode : ∀ (blk blk' : Block) (a : α), decode blk = .ok a →
    (∀ i, padding i → blk.bytes.getD i 0 = 0) → encode a blk' = .ok blk

theorem RoundTrips.of_reads {padding : Nat → Prop}
    (hr : Reads fetch (fun _ => True) blockSize enc clean) (hw : ∀ a, Writes (append a) (enc a))
    (hclean : ∀ l : List UInt8, l.length = blockSize → (∀ i, padding i → l.getD i 0 = 0) →
      clean l) :
    RoundTrips (fun a => encodeToBlk (append a)) (decodeFromBlk fetch) padding where
  decode_encode a blk := by
    have hlen := hr.length a trivial
    refine ⟨⟨enc a, hlen⟩, encodeToBlk_eq (hw a) hlen blk, decodeFromBlk_eq_ok.mpr ⟨_,
      hr.reads _ a [] trivial ?_, Nat.zero_add _⟩⟩
    rw [List.append_nil]
    rfl
  encode_decode blk blk' a h hpad := by
    have hlen := hr.length a trivial
    obtain ⟨s, hs, -⟩ := decodeFromBlk_eq_ok.mp h
    obtain ⟨-, -, hb⟩ := hr.back _ s a hs
    have henc := hb (hclean _ blk.length_eq hpad)
    rw [encodeToBlk_eq (hw a) hlen blk']
    refine congrArg Except.ok (Block.ext ?_)
    exact henc.trans (List.take_of_length_le blk.length_eq.le)

end Blocks

/-- A stretch of zeros. -/
theorem take_drop_eq_replicate {l : List UInt8} {i n : Nat} (hlen : i + n ≤ l.length)
    (h : ∀ k < n, l.getD (i + k) 0 = 0) : (l.drop i).take n = List.replicate n 0 := by
  apply List.ext_getElem
  · rw [List.length_take, List.length_drop, List.length_replicate]
    omega
  · intro k h₁ h₂
    rw [List.length_replicate] at h₂
    have hk := h k h₂
    rw [List.getD_eq_getElem?_getD, List.getElem?_eq_getElem (by omega), Option.getD_some] at hk
    rw [List.getElem_take, List.getElem_drop, List.getElem_replicate, hk]

/-- The bytes of a block of nodes that belong to no field. -/
def type1Padding (i : Nat) : Prop := 48 ≤ i % 64

def type2Padding (i : Nat) : Prop := 37 ≤ i % 64

/-- The bytes of a superblock that belong to no field: six at the end of each
snapshot, and all after the last field. -/
def superblockPadding (i : Nat) : Prop :=
  (∃ k < maxNrOfSnapshots, 97 + 72 * k + 66 ≤ i ∧ i < 97 + 72 * k + 72) ∨ 3713 ≤ i

/-- Superblocks and blocks of nodes are read as they were written, and written
as they were read. -/
theorem blocks_round_trip :
    RoundTrips Superblock.encodeToBlk Superblock.decodeFromBlk superblockPadding ∧
      RoundTrips Type1NodeBlock.encodeToBlk Type1NodeBlock.decodeFromBlk type1Padding ∧
      RoundTrips Type2NodeBlock.encodeToBlk Type2NodeBlock.decodeFromBlk type2Padding := by
  refine ⟨.of_reads Superblock.reads Superblock.writes fun l hlen hpad => ⟨fun k hk => ?_, ?_⟩,
    .of_reads (Type1Node.reads.array nrOfNodesPerBlk) (fun f => .array Type1Node.writes f)
      fun l hlen hpad k hk => ?_,
    .of_reads (Type2Node.reads.array nrOfNodesPerBlk) (fun f => .array Type2Node.writes f)
      fun l hlen hpad k hk => ?_⟩
  · change k < 48 at hk
    change l.length = 4096 at hlen
    rw [Snapshot.Clean, List.drop_drop, List.drop_drop]
    refine take_drop_eq_replicate (by omega) fun j hj => hpad _ (.inl ⟨k, hk, ?_, ?_⟩)
    · omega
    · omega
  · change l.length = 4096 at hlen
    exact take_drop_eq_replicate (by omega) fun j hj => hpad _ (.inr (by omega))
  · change k < 64 at hk
    change l.length = 4096 at hlen
    rw [Type1Node.Clean, List.drop_drop]
    refine take_drop_eq_replicate (by omega) fun j hj => hpad _ ?_
    unfold type1Padding
    omega
  · change k < 64 at hk
    change l.length = 4096 at hlen
    rw [Type2Node.Clean, List.drop_drop]
    refine take_drop_eq_replicate (by omega) fun j hj => hpad _ ?_
    unfold type2Padding
    omega

/-! ## The blocks of the other modules -/

theorem Type1Node.bytes_eq (node : Type1Node) :
    Type1Node.bytes node = Tresor.Type1Node.codec.encode node := by
  rw [Type1Node.bytes, List.append_nil, ← List.append_assoc]
  rfl

theorem Type2Node.bytes_eq (node : Type2Node) :
    Type2Node.bytes node = Tresor.Type2Node.codec.encode node := by
  simp only [Type2Node.bytes, Tresor.Type2Node.codec, Codec.map, Codec.seq, Codec.word64,
    Codec.word32, Codec.bool, Codec.padding, encodeBool, List.append_assoc, List.append_nil]

theorem Snapshot.bytes_eq (snap : Snapshot) :
    Snapshot.bytes snap = Tresor.Snapshot.codec.encode snap := by
  simp only [Snapshot.bytes, Tresor.Snapshot.codec, Codec.map, Codec.seq, Codec.word64,
    Codec.word32, Codec.bool, Codec.padding, Codec.bytes, encodeBool, List.append_assoc,
    List.append_nil]

theorem Key.bytes_eq (key : Key) : Key.bytes key = Tresor.Key.codec.encode key := by
  rw [Key.bytes, List.append_nil]
  rfl

theorem Type1NodeBlock.encodeToBlk_eq (nodes : Type1NodeBlock) (blk : Block) :
    Type1NodeBlock.encodeToBlk nodes blk = .ok (Tresor.Type1NodeBlock.encodeToBlk nodes) := by
  have hlen : ((List.ofFn nodes).flatMap Type1Node.bytes).length = blockSize :=
    (Type1Node.reads.array nrOfNodesPerBlk).length nodes trivial
  have hw := OnDisc.encodeToBlk_eq (.array Type1Node.writes nodes) hlen blk
  have hbytes : (List.ofFn nodes).flatMap Type1Node.bytes =
      Tresor.Type1NodeBlock.codec.encode nodes := by
    rw [funext Type1Node.bytes_eq, Tresor.Type1NodeBlock.codec, Codec.array]
  rw [Type1NodeBlock.encodeToBlk, hw, Tresor.Type1NodeBlock.encodeToBlk]
  simp only [hbytes]

theorem Type2NodeBlock.encodeToBlk_eq (nodes : Type2NodeBlock) (blk : Block) :
    Type2NodeBlock.encodeToBlk nodes blk = .ok (Tresor.Type2NodeBlock.encodeToBlk nodes) := by
  have hlen : ((List.ofFn nodes).flatMap Type2Node.bytes).length = blockSize :=
    (Type2Node.reads.array nrOfNodesPerBlk).length nodes trivial
  have hw := OnDisc.encodeToBlk_eq (.array Type2Node.writes nodes) hlen blk
  have hbytes : (List.ofFn nodes).flatMap Type2Node.bytes =
      Tresor.Type2NodeBlock.codec.encode nodes := by
    rw [funext Type2Node.bytes_eq, Tresor.Type2NodeBlock.codec, Codec.array]
  rw [Type2NodeBlock.encodeToBlk, hw, Tresor.Type2NodeBlock.encodeToBlk]
  simp only [hbytes]

namespace Superblock

/-- The fields of a superblock that is in use. -/
def ofSuperblock (sb : Tresor.Superblock) : Superblock where
  state := sb.state
  rekeyingVba := sb.rekeyingVba
  resizingNrOfPbas := sb.resizingNrOfPbas
  resizingNrOfLeaves := sb.resizingNrOfLeaves
  previousKey := sb.previousKey
  currentKey := sb.currentKey
  snapshots := sb.snapshots
  lastSecuredGeneration := sb.lastSecuredGeneration
  currSnap := SnapshotIndex.toWord sb.currSnap
  degree := sb.degree.toWord
  firstPba := sb.firstPba
  nrOfPbas := sb.nrOfPbas
  freeGen := sb.free.gen
  freeNumber := sb.free.number
  freeHash := sb.free.hash
  freeMaxLevel := sb.free.maxLevel
  freeDegree := sb.free.degree
  freeLeaves := sb.free.leaves
  metaGen := sb.metaTree.gen
  metaNumber := sb.metaTree.number
  metaHash := sb.metaTree.hash
  metaMaxLevel := sb.metaTree.maxLevel
  metaDegree := sb.metaTree.degree
  metaLeaves := sb.metaTree.leaves

theorem bytes_ofSuperblock (sb : Tresor.Superblock) :
    (ofSuperblock sb).bytes = Tresor.Superblock.codec.encode sb := by
  simp only [bytes, ofSuperblock, funext Snapshot.bytes_eq, Key.bytes_eq, Tresor.Superblock.codec,
    Codec.map, Codec.seq, Codec.word64, Codec.word32, Codec.padding, Codec.mapPartial, Codec.byte,
    Codec.bytes, Codec.array, SuperblockState.codec, SnapshotIndex.codec, TreeDegree.codec,
    TreeRoot.codec, Snapshots.codec, List.append_assoc, List.append_nil, List.cons_append,
    List.nil_append]

/-- The superblock control writes its superblock in the same format. -/
theorem encodeToBlk_ofSuperblock (sb : Tresor.Superblock) (blk : Block) :
    encodeToBlk (ofSuperblock sb) blk = .ok sb.encodeToBlk := by
  have hlen : (ofSuperblock sb).bytes.length = blockSize := Superblock.reads.length _ trivial
  have hw := OnDisc.encodeToBlk_eq (Superblock.writes (ofSuperblock sb)) hlen blk
  rw [encodeToBlk, hw, Tresor.Superblock.encodeToBlk]
  simp only [bytes_ofSuperblock]

end Superblock

end Genode.Tresor.OnDisc
