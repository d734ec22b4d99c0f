import Genode.Lib.Segments

/-!
# Path — import and canonicalization of a path

`os/path.h`. A string is the list of its characters, without the zero at its
end. `import` copies a path into the buffer of the object, and four passes over
the buffer rewrite it in place.
-/

namespace Genode.Os

open Genode.Lib

namespace Path

def slash : UInt8 := 0x2f

def dot : UInt8 := 0x2e

/-! ## The passes -/

/-- `strip_superfluous_slashes`. `remove_char` leaves the pointer where it is, at the
rest of the string. -/
def stripSuperfluousSlashes : List UInt8 → List UInt8
  | [] => []
  | c :: s =>
    if c = slash ∧ s.head? = some slash then stripSuperfluousSlashes s
    else c :: stripSuperfluousSlashes s

/-- `strip_superfluous_dotslashes`, with `remove_char` twice. -/
def stripSuperfluousDotslashes : List UInt8 → List UInt8
  | [] => []
  | [c] => [c]
  | c :: d :: s =>
    if c = slash ∧ d = dot ∧ s.head? = some slash then stripSuperfluousDotslashes s
    else c :: stripSuperfluousDotslashes (d :: s)

/-- Whether a string starts with a double-dot element. -/
def startsWithDoubleDot (s : List UInt8) : Bool :=
  decide (s[0]? = some slash) && decide (s[1]? = some dot) && decide (s[2]? = some dot) &&
    (decide (s[3]? = none) || decide (s[3]? = some slash))

/-- The loop of `find_double_dot_dir` from the index `i` on. -/
def findDoubleDotDirFrom (i : Nat) : List UInt8 → Nat
  | [] => 0
  | c :: s => if startsWithDoubleDot (c :: s) then i + 1 else findDoubleDotDirFrom (i + 1) s

/-- `find_double_dot_dir`, the index of the first dot; zero if there is none. -/
def findDoubleDotDir (path : List UInt8) : Nat := findDoubleDotDirFrom 0 path

/-- The loop that skips the previous element. -/
def skipElement (path : List UInt8) : Nat → Nat
  | 0 => 0
  | cutStart + 1 =>
    if path[cutStart]? = some slash then cutStart + 1 else skipElement path cutStart

/-- `strip` of `count` characters from an index on. -/
def strip (path : List UInt8) (dst count : Nat) : List UInt8 :=
  path.take dst ++ path.drop (dst + count)

/-- The body of the loop in `strip_double_dot_dirs`. -/
def stripDoubleDotDir (path : List UInt8) (i : Nat) : List UInt8 :=
  let cutStart := skipElement path (i - 1)
  let cutEnd := i + 2
  -- the slash in front of the pair of dots
  let cutStart := if cutStart > 0 then cutStart - 1 else cutStart
  strip path cutStart (cutEnd - cutStart)

/-- The loop of `strip_double_dot_dirs`, `n` times at most. -/
def stripDoubleDotDirsLoop : Nat → List UInt8 → List UInt8
  | 0, path => path
  | n + 1, path =>
    let i := findDoubleDotDir path
    if i = 0 then path else stripDoubleDotDirsLoop n (stripDoubleDotDir path i)

/-- `strip_double_dot_dirs`. -/
def stripDoubleDotDirs (path : List UInt8) : List UInt8 :=
  stripDoubleDotDirsLoop path.length path

/-- `remove_trailing`. The first character is never touched. -/
def removeTrailing (c : UInt8) (path : List UInt8) : List UInt8 :=
  if 1 < path.length ∧ path.getLast? = some c then path.dropLast else path

/-- `_canonicalize`. -/
def canonicalize (path : List UInt8) : List UInt8 :=
  removeTrailing dot
    (stripDoubleDotDirs (stripSuperfluousDotslashes (stripSuperfluousSlashes path)))

theorem stripSuperfluousSlashes_length_le (s : List UInt8) :
    (stripSuperfluousSlashes s).length ≤ s.length := by
  induction s with
  | nil => exact Nat.le_refl _
  | cons c s ih =>
    rw [stripSuperfluousSlashes]
    split
    · exact Nat.le_succ_of_le ih
    · exact Nat.succ_le_succ ih

theorem stripSuperfluousDotslashes_length_le (s : List UInt8) :
    (stripSuperfluousDotslashes s).length ≤ s.length := by
  induction s using stripSuperfluousDotslashes.induct with
  | case1 => exact Nat.le_refl _
  | case2 c => exact Nat.le_refl _
  | case3 c d s h ih =>
    rw [stripSuperfluousDotslashes, if_pos h]
    exact Nat.le_trans ih (by simp; omega)
  | case4 c d s h ih =>
    rw [stripSuperfluousDotslashes, if_neg h]
    exact Nat.succ_le_succ ih

theorem stripDoubleDotDirsLoop_length_le (n : Nat) (s : List UInt8) :
    (stripDoubleDotDirsLoop n s).length ≤ s.length := by
  induction n generalizing s with
  | zero => exact Nat.le_refl _
  | succ n ih =>
    rw [stripDoubleDotDirsLoop]
    split
    · exact Nat.le_refl _
    · apply Nat.le_trans (ih _)
      simp only [stripDoubleDotDir, strip, List.length_append, List.length_take, List.length_drop]
      omega

theorem canonicalize_length_le (s : List UInt8) : (canonicalize s).length ≤ s.length := by
  have hpasses : (stripDoubleDotDirs (stripSuperfluousDotslashes
      (stripSuperfluousSlashes s))).length ≤ s.length :=
    Nat.le_trans (stripDoubleDotDirsLoop_length_le _ _)
      (Nat.le_trans (stripSuperfluousDotslashes_length_le _) (stripSuperfluousSlashes_length_le s))
  unfold canonicalize removeTrailing
  split
  · rw [List.length_dropLast]
    omega
  · exact hpasses

end Path

/-! ## The object -/

open Genode.Os.Path

inductive PathError where
  | tooLong
  | invalid
  deriving DecidableEq, Repr

/-- `Path_base`, with a buffer of `maxLen` characters. -/
@[ext]
structure PathBase (maxLen : Nat) where
  /-- The string at `_path`. -/
  path : List UInt8
  fits : path.length < maxLen
  deriving DecidableEq

namespace PathBase

variable {maxLen : Nat} (self : PathBase maxLen)

/-- `copy_cstring` to the begin of the buffer. -/
def copyCstring (src : List UInt8) : PathBase maxLen :=
  ⟨src.take (maxLen - 1), by
    have := self.fits
    rw [List.length_take]
    omega⟩

/-- `_append`. -/
def append (path : List UInt8) : Except PathError (PathBase maxLen) :=
  if h : maxLen ≤ path.length + self.path.length + 1 then .error .tooLong
  else .ok ⟨self.path ++ path.take (maxLen - self.path.length - 1), by
    rw [List.length_append, List.length_take]
    omega⟩

def endsWith (c : UInt8) (path : List UInt8) : Bool := decide (path.getLast? = some c)

def absolute (path : List UInt8) : Bool := decide (path.head? = some slash)

/-- `_append_slash_if_needed`. -/
def appendSlashIfNeeded : Except PathError (PathBase maxLen) :=
  if endsWith slash self.path then .ok self else self.append [slash]

/-- `_canonicalize`. -/
def canonicalized : PathBase maxLen :=
  ⟨canonicalize self.path, Nat.lt_of_le_of_lt (canonicalize_length_le _) self.fits⟩

/-- `pwd`, or the root if it is missing. -/
def orRoot (pwd : Option (List UInt8)) : List UInt8 :=
  match pwd with
  | none => [slash]
  | some pwd => if pwd.length = 0 then [slash] else pwd

/-- What `import` puts into the buffer before it canonicalizes it. -/
def importText (path : List UInt8) (pwd : Option (List UInt8)) :
    Except PathError (PathBase maxLen) :=
  if absolute path then .ok (self.copyCstring path)
  else
    let self := self.copyCstring (orRoot pwd)
    if path.length = 0 then .ok self
    else do
      let self ← self.appendSlashIfNeeded
      self.append path

/-- `import`. A missing path is invalid. -/
def «import» (path pwd : Option (List UInt8)) : Except PathError (PathBase maxLen) :=
  match path with
  | none => .error .invalid
  | some path => (self.importText path pwd).map canonicalized

end PathBase

end Genode.Os
