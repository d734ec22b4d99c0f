import Mathlib.Algebra.Order.Ring.Nat
import Mathlib.Data.BitVec

/-!
# Affinity — the CPUs a thread is placed on

`base/affinity.h` and `Cpu_session_component::_thread_affinity`. CPUs form
a grid, and a CPU session is assigned a rectangle of it. The client names
the CPUs of a thread relative to that rectangle, with positions that are
signed and sizes that are not. Sums of both are 32-bit numbers, and so are
sums of two positions, whose overflow, undefined in the code, wraps here.
-/

namespace Genode.Core

namespace Affinity

/-- `Affinity::Space`. -/
structure Space where
  width : BitVec 32
  height : BitVec 32
  deriving DecidableEq, Repr

/-- `Affinity::Location`. -/
@[ext]
structure Location where
  xpos : BitVec 32
  ypos : BitVec 32
  width : BitVec 32
  height : BitVec 32
  deriving DecidableEq, Repr

namespace Location

def transpose (l : Location) (dx dy : BitVec 32) : Location :=
  { l with xpos := l.xpos + dx, ypos := l.ypos + dy }

def within (l : Location) (space : Space) : Bool :=
  let x1 := l.xpos
  let x2 := l.xpos + l.width - 1
  let y1 := l.ypos
  let y2 := l.ypos + l.height - 1
  (0#32).sle x1 && x1.sle x2 && x2.ult space.width &&
    ((0#32).sle y1 && y1.sle y2 && y2.ult space.height)

end Location

end Affinity

open Affinity

namespace CpuSessionComponent

/-- `max` for `int`. -/
def maxInt (v1 v2 : BitVec 32) : BitVec 32 := if v2.slt v1 then v1 else v2

/-- `_thread_affinity` of a session with the location `session`. -/
def threadAffinity (session location : Location) : Location :=
  let x1 := location.xpos + session.xpos
  let y1 := location.ypos + session.ypos
  let x2 := location.xpos + location.width
  let y2 := location.ypos + location.height
  let clippedX1 := maxInt session.xpos x1
  let clippedY1 := maxInt session.ypos y1
  let clippedX2 := maxInt (session.xpos + session.width - 1) x2
  let clippedY2 := maxInt (session.ypos + session.height - 1) y2
  { xpos := clippedX1
    ypos := clippedY1
    width := clippedX2 - clippedX1 + 1
    height := clippedY2 - clippedY1 + 1 }

/-- `affinity_space`, the space the client's locations are relative to. -/
def affinitySpace (session : Location) : Space := ⟨session.width, session.height⟩

/-- The columns (or rows) from `pos` on are among those from `pos'` on. -/
def SpanInside (pos size pos' size' : BitVec 32) : Prop :=
  pos'.toInt ≤ pos.toInt ∧ pos.toInt < pos'.toInt + size'.toNat ∧
    pos.toInt + size.toNat ≤ pos'.toInt + size'.toNat

/-- The thread stays on the CPUs of the session, and on exactly those that its
location means if that fits the session. -/
structure Confined (session location : Location) : Prop where
  columns : SpanInside (threadAffinity session location).xpos
    (threadAffinity session location).width session.xpos session.width
  rows : SpanInside (threadAffinity session location).ypos
    (threadAffinity session location).height session.ypos session.height
  shifted : location.within (affinitySpace session) = true →
    threadAffinity session location = location.transpose session.xpos session.ypos

/-- Neither the shifted position nor the local end of the location comes behind
the last physical column (or row) of the session. -/
def SpanLow (pos size pos' size' : BitVec 32) : Prop :=
  (pos + pos').toInt < pos'.toInt + size'.toNat ∧ (pos + size).toInt < pos'.toInt + size'.toNat

/-- The locations `_thread_affinity` is right for. -/
structure Harmless (session location : Location) : Prop where
  columns : SpanLow location.xpos location.width session.xpos session.width
  rows : SpanLow location.ypos location.height session.ypos session.height
  corner : location.within (affinitySpace session) = true →
    location.xpos + location.width = session.width ∧
      location.ypos + location.height = session.height

/-! ## One dimension -/

section

variable {pos size pos' size' bound : BitVec 32}

/-- `within` in one dimension, over the integers. -/
def SpanWithin (pos size bound : BitVec 32) : Prop :=
  0 ≤ pos.toInt ∧ 1 ≤ size.toNat ∧ pos.toInt + size.toNat ≤ bound.toNat ∧
    pos.toInt + size.toNat ≤ 2 ^ 31

theorem spanWithin_iff :
    (((0#32).sle pos && pos.sle (pos + size - 1) && (pos + size - 1).ult bound) = true) ↔
      SpanWithin pos size bound := by
  have hpos := BitVec.toInt_eq_toNat_cond pos
  have hlast := BitVec.toInt_eq_toNat_cond (pos + size - 1)
  have hsum : (pos + size - 1).toNat = (pos.toNat + size.toNat + (2 ^ 32 - 1)) % 2 ^ 32 := by
    bv_omega
  have h1 := pos.isLt
  have h2 := size.isLt
  have h3 := bound.isLt
  simp only [Bool.and_eq_true, BitVec.sle_iff_toInt_le, BitVec.ult_iff_toNat_lt, SpanWithin]
  rw [show (0#32).toInt = 0 from rfl]
  split at hpos <;> split at hlast <;> omega

theorem within_iff {l : Location} {space : Space} : l.within space = true ↔
    SpanWithin l.xpos l.width space.width ∧ SpanWithin l.ypos l.height space.height := by
  rw [← spanWithin_iff, ← spanWithin_iff, ← Bool.and_eq_true]
  rfl

theorem toInt_maxInt (v1 v2 : BitVec 32) : (maxInt v1 v2).toInt = max v1.toInt v2.toInt := by
  unfold maxInt
  split
  · rename_i h
    rw [BitVec.slt_iff_toInt_lt] at h
    omega
  · rename_i h
    rw [BitVec.slt_iff_toInt_lt] at h
    omega

/-- The position `_thread_affinity` comes to in one dimension. -/
def clippedPos (pos pos' : BitVec 32) : BitVec 32 := maxInt pos' (pos + pos')

/-- The size `_thread_affinity` comes to in one dimension. -/
def clippedSize (pos size pos' size' : BitVec 32) : BitVec 32 :=
  maxInt (pos' + size' - 1) (pos + size) - clippedPos pos pos' + 1

theorem toInt_last (hsession : SpanWithin pos' size' bound) :
    (pos' + size' - 1).toInt = pos'.toInt + size'.toNat - 1 := by
  obtain ⟨hnonneg, hsize, -, hend⟩ := hsession
  have hpos := BitVec.toInt_eq_toNat_cond pos'
  have hlast := BitVec.toInt_eq_toNat_cond (pos' + size' - 1)
  have hsum : (pos' + size' - 1).toNat =
      (pos'.toNat + size'.toNat + (2 ^ 32 - 1)) % 2 ^ 32 := by bv_omega
  have h1 := pos'.isLt
  have h2 := size'.isLt
  split at hpos <;> split at hlast <;> omega

/-- The number of columns (or rows) from `a` to `b`. -/
theorem toNat_distance {a b : BitVec 32} (h : a.toInt ≤ b.toInt) (hnonneg : 0 ≤ a.toInt) :
    ((b - a + 1).toNat : Int) = b.toInt - a.toInt + 1 := by
  have ha := BitVec.toInt_eq_toNat_cond a
  have hb := BitVec.toInt_eq_toNat_cond b
  have hsub : (b - a + 1).toNat = (b.toNat + (2 ^ 32 - a.toNat) + 1) % 2 ^ 32 := by bv_omega
  have h1 := a.isLt
  have h2 := b.isLt
  split at ha <;> split at hb <;> omega

theorem spanInside_iff (hsession : SpanWithin pos' size' bound) :
    SpanInside (clippedPos pos pos') (clippedSize pos size pos' size') pos' size' ↔
      SpanLow pos size pos' size' := by
  have hlast := toInt_last hsession
  obtain ⟨hnonneg, hpositive, -, -⟩ := hsession
  have hpos : (clippedPos pos pos').toInt = max pos'.toInt (pos + pos').toInt :=
    toInt_maxInt _ _
  have hend := toInt_maxInt (pos' + size' - 1) (pos + size)
  have hsize : (clippedPos pos pos').toInt < pos'.toInt + size'.toNat →
      ((clippedSize pos size pos' size').toNat : Int) =
        (maxInt (pos' + size' - 1) (pos + size)).toInt - (clippedPos pos pos').toInt + 1 := by
    intro h
    apply toNat_distance <;> omega
  unfold SpanInside SpanLow
  constructor
  · intro h
    have := hsize h.2.1
    omega
  · intro h
    have := hsize (by omega)
    omega

theorem toInt_shifted (hsession : SpanWithin pos' size' bound)
    (hfit : SpanWithin pos size size') : (pos + pos').toInt = pos.toInt + pos'.toInt := by
  obtain ⟨hnonneg', -, -, hend'⟩ := hsession
  obtain ⟨hnonneg, hsize, hend, -⟩ := hfit
  have hpos := BitVec.toInt_eq_toNat_cond pos
  have hpos' := BitVec.toInt_eq_toNat_cond pos'
  have hsum := BitVec.toInt_eq_toNat_cond (pos + pos')
  have hnat : (pos + pos').toNat = (pos.toNat + pos'.toNat) % 2 ^ 32 := BitVec.toNat_add _ _
  have h1 := pos.isLt
  have h2 := pos'.isLt
  split at hpos <;> split at hpos' <;> split at hsum <;> omega

/-- The position of a fitting location is the shifted one, and its size stays
exactly if it reaches to the end of the session's space. -/
theorem span_shifted_iff (hsession : SpanWithin pos' size' bound)
    (hfit : SpanWithin pos size size') (hlow : SpanLow pos size pos' size') :
    clippedPos pos pos' = pos + pos' ∧
      (clippedSize pos size pos' size' = size ↔ pos + size = size') := by
  have hlast := toInt_last hsession
  have hsum := toInt_shifted hsession hfit
  have hpos : clippedPos pos pos' = pos + pos' := by
    apply BitVec.eq_of_toInt_eq
    unfold clippedPos
    rw [toInt_maxInt, hsum]
    have := hfit.1
    omega
  have hend : maxInt (pos' + size' - 1) (pos + size) = pos' + size' - 1 := by
    apply BitVec.eq_of_toInt_eq
    rw [toInt_maxInt, hlast]
    have := hlow.2
    omega
  refine ⟨hpos, ?_⟩
  unfold clippedSize
  rw [hend, hpos]
  constructor
  · intro h
    bv_omega
  · intro h
    bv_omega

end

/-! ## Both dimensions -/

/-- For every session within the physical space and every location of a client:
`_thread_affinity` is right exactly for the harmless ones. -/
theorem threadAffinity_confined_iff (session location : Location) (physical : Space)
    (hsession : session.within physical = true) :
    Confined session location ↔ Harmless session location := by
  obtain ⟨hcols, hrows⟩ := within_iff.mp hsession
  have hx : SpanInside (threadAffinity session location).xpos
      (threadAffinity session location).width session.xpos session.width ↔
        SpanLow location.xpos location.width session.xpos session.width := spanInside_iff hcols
  have hy : SpanInside (threadAffinity session location).ypos
      (threadAffinity session location).height session.ypos session.height ↔
        SpanLow location.ypos location.height session.ypos session.height := spanInside_iff hrows
  constructor
  · intro h
    refine ⟨hx.mp h.columns, hy.mp h.rows, ?_⟩
    intro hwithin
    obtain ⟨hfitx, hfity⟩ := within_iff.mp hwithin
    have heq := h.shifted hwithin
    have hw : clippedSize location.xpos location.width session.xpos session.width =
        location.width := congrArg Location.width heq
    have hh : clippedSize location.ypos location.height session.ypos session.height =
        location.height := congrArg Location.height heq
    exact ⟨(span_shifted_iff hcols hfitx (hx.mp h.columns)).2.mp hw,
      (span_shifted_iff hrows hfity (hy.mp h.rows)).2.mp hh⟩
  · intro h
    refine ⟨hx.mpr h.columns, hy.mpr h.rows, ?_⟩
    intro hwithin
    obtain ⟨hfitx, hfity⟩ := within_iff.mp hwithin
    obtain ⟨hwidth, hheight⟩ := h.corner hwithin
    have hcol := span_shifted_iff hcols hfitx h.columns
    have hrow := span_shifted_iff hrows hfity h.rows
    apply Location.ext
    · exact hcol.1
    · exact hrow.1
    · exact hcol.2.mpr hwidth
    · exact hrow.2.mpr hheight

theorem threadAffinity_confined_quarter :
    Confined ⟨2, 2, 2, 2⟩ ⟨1, 1, 1, 1⟩ ↔ Harmless ⟨2, 2, 2, 2⟩ ⟨1, 1, 1, 1⟩ :=
  threadAffinity_confined_iff ⟨2, 2, 2, 2⟩ ⟨1, 1, 1, 1⟩ ⟨4, 4⟩ (by decide)

/-- The client of a session with one CPU asks for that CPU and gets four. -/
theorem single_cpu_escapes : (⟨0, 0, 1, 1⟩ : Location).within ⟨2, 2⟩ = true ∧
    (⟨0, 0, 1, 1⟩ : Location).within (affinitySpace ⟨0, 0, 1, 1⟩) = true ∧
    threadAffinity ⟨0, 0, 1, 1⟩ ⟨0, 0, 1, 1⟩ = ⟨0, 0, 2, 2⟩ ∧
    ¬ Confined ⟨0, 0, 1, 1⟩ ⟨0, 0, 1, 1⟩ := by
  refine ⟨by decide, by decide, by decide, ?_⟩
  intro h
  have hright := h.columns.2.2
  exact absurd hright (by decide)

end CpuSessionComponent

end Genode.Core
