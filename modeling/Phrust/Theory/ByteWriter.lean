import Mathlib.Algebra.Order.Ring.Int
import Mathlib.Data.List.Basic

/-!
# Filling byte buffers

A `Cursor` writes into a buffer of fixed size, byte after byte; a write past the end is `none`. A
`Writer` announces a length and then fills a buffer of that length. A scanner walks over its input,
consumes at least one byte at a time and emits at most one value per step.
-/

namespace Phrust
open List

/-- A position in a byte buffer of fixed size. -/
structure Cursor where
  buffer : List UInt8
  pos : Nat

namespace Cursor

/-- Store a byte at the position and step over it. -/
def put (cursor : Cursor) (byte : UInt8) : Option Cursor :=
  if cursor.pos < cursor.buffer.length then
    some ⟨cursor.buffer.set cursor.pos byte, cursor.pos + 1⟩
  else none

/-- Store a slice at the position and step over it. -/
def putSlice (cursor : Cursor) (bytes : List UInt8) : Option Cursor := bytes.foldlM put cursor

theorem putSlice_eq {cursor : Cursor} (h : cursor.pos + bytes.length ≤ cursor.buffer.length) :
    cursor.putSlice bytes = some ⟨cursor.buffer.take cursor.pos ++ bytes ++
      cursor.buffer.drop (cursor.pos + bytes.length), cursor.pos + bytes.length⟩ := by
  induction bytes generalizing cursor with
  | nil => simp [putSlice]
  | cons byte bytes ih =>
    rw [length_cons] at h
    have hput : cursor.put byte = some ⟨cursor.buffer.set cursor.pos byte, cursor.pos + 1⟩ :=
      if_pos (by omega)
    have hlt : cursor.pos < cursor.buffer.length := by omega
    rw [putSlice, foldlM_cons, hput]
    have hlen : cursor.pos + 1 + bytes.length ≤ (cursor.buffer.set cursor.pos byte).length := by
      rw [length_set]
      omega
    refine (ih hlen).trans ?_
    have htake : (cursor.buffer.set cursor.pos byte).take (cursor.pos + 1) =
        cursor.buffer.take cursor.pos ++ [byte] := by
      rw [take_add_one, take_set_of_le (Nat.le_refl _), getElem?_set_self hlt]
      rfl
    have hdrop : cursor.pos < cursor.pos + 1 + bytes.length := by omega
    rw [htake, drop_set_of_lt hdrop, length_cons, Nat.add_right_comm, Nat.add_assoc]
    simp

/-- A buffer of the right size ends up as the bytes written. -/
theorem putSlice_full {output : List UInt8} (h : output.length = bytes.length) :
    putSlice ⟨output, 0⟩ bytes = some ⟨bytes, bytes.length⟩ := by
  have hlen : 0 + bytes.length ≤ output.length := by omega
  refine (putSlice_eq hlen).trans ?_
  simp [h]

theorem putSlice_append (cursor : Cursor) (a b : List UInt8) :
    cursor.putSlice (a ++ b) = (cursor.putSlice a).bind (·.putSlice b) := by
  rw [putSlice, foldlM_append]
  rfl

/-- A loop whose steps write the encoding of one element writes the encoding of the whole list. -/
theorem foldlM_putSlice (encode : α → List UInt8)
    (hstep : ∀ cursor a, step cursor a = cursor.putSlice (encode a)) (cursor : Cursor)
    (input : List α) : input.foldlM step cursor = cursor.putSlice (input.flatMap encode) := by
  induction input generalizing cursor with
  | nil => rfl
  | cons a input ih =>
    rw [foldlM_cons, flatMap_cons, putSlice_append, hstep]
    exact congrArg _ (funext ih)

end Cursor

/-- The length a writer announces and the pass that fills a buffer. The pass reports whether it
filled the buffer; `none` is a panic. -/
structure Writer where
  outputLength : Option Nat
  into : List UInt8 → Option (Bool × List UInt8)

namespace Writer

/-- The writer fills every buffer of the announced length with `bytes`. -/
structure Defines (writer : Writer) (bytes : List UInt8) : Prop where
  length : writer.outputLength = some bytes.length
  into : ∀ buffer, buffer.length = bytes.length → writer.into buffer = some (true, bytes)

variable {writer : Writer}

theorem Defines.unique (h : writer.Defines bytes) (h' : writer.Defines bytes') : bytes = bytes' := by
  have hlen : bytes.length = bytes'.length := Option.some.inj (h.length.symm.trans h'.length)
  have := (h.into bytes rfl).symm.trans (h'.into bytes hlen)
  exact congrArg Prod.snd (Option.some.inj this)

/-- Filling a buffer inside a debug assertion: without debug assertions the pass is not run. -/
def fill (writer : Writer) (debugAssertions : Bool) (buffer : List UInt8) : Option (List UInt8) :=
  if debugAssertions then
    match writer.into buffer with
    | some (true, output) => some output
    | _ => none
  else some buffer

/-- Size a zeroed buffer and fill it inside a debug assertion. -/
def baseline (writer : Writer) (debugAssertions : Bool) : Option (List UInt8) :=
  match writer.outputLength with
  | none => some []
  | some length => writer.fill debugAssertions (List.replicate length 0)

theorem baseline_overflow (debugAssertions : Bool) (h : writer.outputLength = none) :
    writer.baseline debugAssertions = some [] := by
  rw [baseline, h]

theorem Defines.fill_debug (h : writer.Defines bytes)
    (hlen : buffer.length = bytes.length) : writer.fill true buffer = some bytes := by
  rw [fill, if_pos rfl, h.into buffer hlen]

theorem Defines.baseline_debug (h : writer.Defines bytes) : writer.baseline true = some bytes := by
  rw [baseline, h.length]
  exact h.fill_debug (by simp)

/-- Without debug assertions the buffer stays zeroed. -/
theorem Defines.baseline_release_iff (h : writer.Defines bytes) :
    writer.baseline false = some bytes ↔ ∀ byte ∈ bytes, byte = 0 := by
  rw [baseline, h.length]
  show some (List.replicate bytes.length 0) = some bytes ↔ _
  rw [Option.some.injEq, eq_comm, eq_replicate_iff]
  exact and_iff_right rfl

end Writer

/-! ## Scanners -/

section
variable (iteration : UInt8 → List UInt8 → Option α × Nat)

/-- What a scanner emits. One iteration sees the next byte and the bytes behind it; it emits at most
one value and says how many of the bytes behind are consumed too. -/
def scan : List UInt8 → List α
  | [] => []
  | byte :: rest =>
    (iteration byte rest).1.toList ++ scan (rest.drop (iteration byte rest).2)
termination_by input => input.length
decreasing_by simp only [length_drop, length_cons]; omega

/-- The scanner with a callback that may fail; it also counts what it emits. -/
def visit (emit : σ → α → Option σ) : List UInt8 → σ → Option (Nat × σ)
  | [], state => some (0, state)
  | byte :: rest, state =>
    match (iteration byte rest).1 with
    | none => visit emit (rest.drop (iteration byte rest).2) state
    | some value => do
      let state ← emit state value
      let (length, state) ← visit emit (rest.drop (iteration byte rest).2) state
      return (length + 1, state)
termination_by input => input.length
decreasing_by all_goals simp only [length_drop, length_cons]; omega

theorem visit_eq (emit : σ → α → Option σ) (input : List UInt8) (state : σ) :
    visit iteration emit input state =
      ((scan iteration input).foldlM emit state).map ((scan iteration input).length, ·) := by
  fun_induction scan iteration input generalizing state with
  | case1 => rw [visit]; rfl
  | case2 byte rest ih =>
    rw [visit]
    cases (iteration byte rest).1 with
    | none => exact ih state
    | some value =>
      simp only [ih, Option.toList_some, singleton_append, foldlM_cons, length_cons]
      cases emit state value with
      | none => rfl
      | some state =>
        simp only [Option.bind_eq_bind, Option.bind_some]
        cases (scan iteration (rest.drop (iteration byte rest).2)).foldlM emit state <;> rfl

/-- The counting pass. -/
theorem visit_length (input : List UInt8) :
    visit iteration (fun (_ : Unit) _ => some ()) input () = some ((scan iteration input).length, ()) := by
  have hfold : ∀ l : List α, l.foldlM (fun (_ : Unit) _ => some ()) () = some () := by
    intro l
    induction l with
    | nil => rfl
    | cons a l ih => exact ih
  rw [visit_eq, hfold]
  rfl

end

/-- A scanner that reads the encoding of each element reads the encoding of a list. -/
theorem scan_flatMap {iteration : UInt8 → List UInt8 → Option α × Nat} {encode : α → List UInt8}
    (h : ∀ a rest, scan iteration (encode a ++ rest) = a :: scan iteration rest) (input : List α) :
    scan iteration (input.flatMap encode) = input := by
  induction input with
  | nil => rw [flatMap_nil, scan]
  | cons a input ih => rw [flatMap_cons, h, ih]
end Phrust
