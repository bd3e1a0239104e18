import Zab.File.AsyncFile
import Zab.File.Descriptors

set_option autoImplicit false

/-! # Calls of `write_to_file` in turn

Every call of `write_to_file` counts from 0, and what it counts is the file offset of its
requests: the request carries an offset of its own, and the position of the descriptor, which
`position` moves, plays no part. Each call therefore writes over what the call before it wrote.

The file is opened with `kTrunc` or `kRWTruncate`, and every write of the kernel is complete: its
result is the length of the span. A span longer than a completion can report has no complete
write, so the buffers of such calls have at most `2 ^ 31 - 2` bytes.
-/

namespace Zab.AsyncFile

open Descriptors (FileOption openOptions oTrunc)

/-- What is in a file after it was opened with the given flags. -/
def openedFile (flags : BitVec 32) (file : File) : File :=
  if flags &&& oTrunc ≠ 0 then fun _ => none else file

/-- A call of `write_to_file` in which every write is complete. -/
structure Call where
  buffer : Buffer
  results : Nat → Int
  kernel : Kernel buffer results
  complete : ∀ i, Requested buffer results i → results i = (request buffer results i).len

/-- Calls of `write_to_file` in turn; every call may have `fuel`. -/
def writeAll (fuel : Nat) : List Call → File → Option File
  | [], file => some file
  | c :: calls, file =>
      (writeToFile c.buffer c.results fuel ⟨0, file, []⟩).bind fun s => writeAll fuel calls s.file

/-- The bytes of a buffer. -/
def Buffer.bytes (b : Buffer) : List UInt8 := List.ofFn fun p : Fin b.size => b.mem p

/-- The buffers of the calls one after the other. -/
def concatenation (calls : List Call) : List UInt8 := calls.flatMap fun c => c.buffer.bytes

/-- These bytes are in the file, and nothing else. -/
def Holds (file : File) (bytes : List UInt8) : Prop :=
  ∀ p : Int, file p = if 0 ≤ p then bytes[p.toNat]? else none

/-- **The calls extend the file.** -/
def Extends (option : FileOption) (file : File) (calls : List Call) : Prop :=
  ∃ fuel file', writeAll fuel calls (openedFile (openOptions option) file) = some file' ∧
    Holds file' (concatenation calls)

/-- The call has something to write. -/
def Call.nonEmpty (c : Call) : Bool := decide (c.buffer.size ≠ 0)

/-! ## One call -/

section

variable {c : Call} {calls : List Call} {file : File} {b : Buffer} {results : Nat → Int}

theorem requested_zero (h : b.size ≠ 0) : Requested b results 0 := by
  refine ⟨fun j hj => absurd hj (Nat.not_lt_zero j), fun j hj => ?_⟩
  rw [show j = 0 by omega]
  exact fun hsize => h hsize.symm

theorem Requested.next {i : Nat} (h : Requested b results i) (hpos : 0 < results i)
    (hne : offset results (i + 1) ≠ b.size) : Requested b results (i + 1) := by
  constructor
  · intro j hj
    rcases Nat.lt_or_ge j i with hlt | hge
    · exact h.1 j hlt
    · rw [show j = i by omega]
      exact hpos
  · intro j hj
    rcases Nat.lt_or_ge j (i + 1) with hlt | hge
    · exact h.2 j (by omega)
    · rw [show j = i + 1 by omega]
      exact hne

/-- The length of the span at an offset that fits and inside the buffer. -/
theorem request_len {i : Nat} (hoff : offset results i < 2 ^ 31) (hle : offset results i ≤ b.size) :
    (request b results i).len
      = offset results i + min (b.size - offset results i) (2 ^ 31 - 1 - 1) := by
  have hsize := b.size_lt
  have h1 := toSizeT_of_lt (z := b.size - offset results i) (by omega) (by omega)
  have h2 : toWrite b (offset results i) = min (b.size - offset results i) (2 ^ 31 - 1 - 1) := by
    unfold toWrite
    omega
  have h3 := toSizeT_of_lt (z := offset results i + (toWrite b (offset results i) : Nat))
    (by omega) (by rw [h2]; omega)
  simp only [request, writeSome, toInt32_of_lt hoff]
  omega

/-- The first write of a call that has something to write. -/
theorem Call.result_zero (c : Call) (h : c.buffer.size ≠ 0) :
    c.results 0 = (min c.buffer.size (2 ^ 31 - 1 - 1) : Nat) := by
  rw [c.complete 0 (requested_zero h), request_len (by simp [offset]) (by simp [offset])]
  simp [offset]

/-- A longer buffer needs a second write that begins with the first chunk again, and that is more
than a completion can report, or it ends at an offset that is negative. -/
theorem Call.size_le (c : Call) : c.buffer.size ≤ 2 ^ 31 - 1 - 1 := by
  by_contra hbig
  have h0 : Requested c.buffer c.results 0 := requested_zero (by omega)
  have hr0 : c.results 0 = 2 ^ 31 - 1 - 1 := by
    rw [c.result_zero (by omega)]
    omega
  have hoff1 : offset c.results 1 = 2 ^ 31 - 1 - 1 := by
    simp only [offset]
    omega
  have h1 : Requested c.buffer c.results 1 := h0.next (by omega) (by rw [hoff1]; omega)
  have hlt1 := c.kernel.lt 1 h1
  have hr1 := c.complete 1 h1
  rw [request_len (by omega) (by omega)] at hr1
  -- only one byte is left, and the second write goes past the end of the buffer
  have hsize : c.buffer.size = 2 ^ 31 - 1 := by omega
  have hoff2 : offset c.results 2 = 2 ^ 32 - 3 := by
    rw [offset, hoff1]
    omega
  have h2 : Requested c.buffer c.results 2 := h1.next (by omega) (by rw [hoff2]; omega)
  have hr2 := c.complete 2 h2
  have hneg := c.kernel.negative 2 h2 (by rw [hoff2]; decide)
  have hlen : (request c.buffer c.results 2).len = 2 ^ 31 - 5 := by
    simp only [request, writeSome, toWrite, hoff2, hsize]
    decide
  omega

/-- What a call leaves in the file. -/
def Call.write (c : Call) (file : File) : File :=
  kernelWrite file c.buffer.mem 0 c.buffer.size

/-- A call writes its buffer at the start of the file. -/
theorem Call.writeToFile_eq (c : Call) (file : File) :
    ∃ fuel s, writeToFile c.buffer c.results fuel ⟨0, file, []⟩ = some s ∧
      s.file = c.write file := by
  obtain ⟨n, hreq, hend, fuel, hrun⟩ := c.kernel.terminates file
  refine ⟨fuel, _, hrun, ?_⟩
  by_cases hsize : c.buffer.size = 0
  · have hn : n = 0 := by
      by_contra hne
      exact ((hreq 0).mpr (by omega)).2 0 (Nat.le_refl 0) hsize.symm
    rw [hn]
    funext p
    simp only [after, Call.write, kernelWrite, hsize]
    rw [if_neg (by omega)]
  · have hle := c.size_le
    have h0 : Requested c.buffer c.results 0 := requested_zero hsize
    have hr0 := c.result_zero hsize
    have hone : offset c.results 1 = c.buffer.size := by
      simp only [offset]
      omega
    -- the first write is the only one
    have hn : n = 1 := by
      have hpos := (hreq 0).mp h0
      by_contra hne
      exact ((hreq 1).mpr (by omega)).2 1 (Nat.le_refl 1) hone
    have hoff : (request c.buffer c.results 0).off = 0 := by
      rw [request_off, offset, toInt32_of_lt (by decide), Nat.cast_zero]
    have hres : c.results 0 = c.buffer.size := by omega
    rw [hn]
    unfold Call.write
    simp only [after, hoff, request_result, hres]

/-! ## Calls in turn -/

/-- What the calls leave in the file. -/
def written (calls : List Call) (file : File) : File := calls.foldl (fun file c => c.write file) file

theorem writeAll_mono {fuel : Nat} {file' : File} (k : Nat)
    (h : writeAll fuel calls file = some file') : writeAll (fuel + k) calls file = some file' := by
  induction calls generalizing file with
  | nil => exact h
  | cons c calls ih =>
      obtain ⟨s, hs, hrest⟩ := Option.bind_eq_some_iff.mp h
      exact Option.bind_eq_some_iff.mpr ⟨s, writeToFile_mono k hs, ih hrest⟩

theorem exists_writeAll (calls : List Call) (file : File) :
    ∃ fuel, writeAll fuel calls file = some (written calls file) := by
  induction calls generalizing file with
  | nil => exact ⟨0, rfl⟩
  | cons c calls ih =>
      obtain ⟨fuel, s, hs, hfile⟩ := c.writeToFile_eq file
      obtain ⟨fuel', hrest⟩ := ih (c.write file)
      refine ⟨fuel + fuel', Option.bind_eq_some_iff.mpr ⟨s, writeToFile_mono fuel' hs, ?_⟩⟩
      rw [hfile, Nat.add_comm]
      exact writeAll_mono fuel hrest

/-- The calls come to an end, with one file. -/
theorem writeAll_unique {fuel : Nat} {file' : File} (h : writeAll fuel calls file = some file') :
    file' = written calls file := by
  obtain ⟨fuel', h'⟩ := exists_writeAll calls file
  have h1 := writeAll_mono fuel' h
  have h2 := writeAll_mono fuel h'
  rw [Nat.add_comm] at h2
  exact Option.some.inj (h1.symm.trans h2)

theorem Call.write_apply (c : Call) (file : File) (p : Int) :
    c.write file p
      = if 0 ≤ p ∧ p < c.buffer.size then some (c.buffer.mem p.toNat) else file p := by
  simp only [Call.write, kernelWrite, Int.zero_add, Int.sub_zero]

/-- Nothing is written behind the longest buffer. -/
theorem written_of_le {p : Int} (h : ∀ c ∈ calls, c.buffer.size ≤ p) :
    written calls file p = file p := by
  induction calls generalizing file with
  | nil => rfl
  | cons c calls ih =>
      have hc := h c (List.mem_cons_self ..)
      have hrest : written calls (c.write file) p = c.write file p :=
        ih fun d hd => h d (List.mem_cons_of_mem c hd)
      refine hrest.trans ?_
      rw [c.write_apply, if_neg (by omega)]

theorem Call.write_of_empty (hc : c.nonEmpty = false) (file : File) : c.write file = file := by
  have hsize : c.buffer.size = 0 := by simpa [Call.nonEmpty] using hc
  funext p
  rw [c.write_apply, hsize, if_neg (by omega)]

theorem written_filter (calls : List Call) (file : File) :
    written (calls.filter Call.nonEmpty) file = written calls file := by
  induction calls generalizing file with
  | nil => rfl
  | cons c calls ih =>
      cases hc : c.nonEmpty with
      | true =>
          rw [List.filter_cons_of_pos hc]
          exact ih (c.write file)
      | false =>
          have hskip : written (c :: calls) file = written calls (c.write file) := rfl
          rw [List.filter_cons_of_neg (by simp [hc]), hskip, c.write_of_empty hc]
          exact ih file

theorem Buffer.length_bytes (b : Buffer) : b.bytes.length = b.size := List.length_ofFn

theorem concatenation_filter (calls : List Call) :
    concatenation (calls.filter Call.nonEmpty) = concatenation calls := by
  unfold concatenation
  induction calls with
  | nil => rfl
  | cons c calls ih =>
      cases hc : c.nonEmpty with
      | true => rw [List.filter_cons_of_pos hc, List.flatMap_cons, List.flatMap_cons, ih]
      | false =>
          have hsize : c.buffer.size = 0 := by simpa [Call.nonEmpty] using hc
          have hnil : c.buffer.bytes = [] :=
            List.eq_nil_of_length_eq_zero (c.buffer.length_bytes.trans hsize)
          rw [List.filter_cons_of_neg (by simp [hc]), List.flatMap_cons, hnil, ih, List.nil_append]

theorem size_le_concatenation (hc : c ∈ calls) : c.buffer.size ≤ (concatenation calls).length := by
  unfold concatenation
  induction calls with
  | nil => cases hc
  | cons d calls ih =>
      rw [List.flatMap_cons, List.length_append, Buffer.length_bytes]
      rcases List.mem_cons.mp hc with rfl | hc
      · omega
      · have := ih hc
        omega

/-- One buffer is what the file holds. -/
theorem holds_one (c : Call) : Holds (c.write fun _ => none) (concatenation [c]) := by
  intro p
  have hcat : concatenation [c] = c.buffer.bytes := List.append_nil _
  have hlen := c.buffer.length_bytes
  rw [hcat, c.write_apply]
  by_cases hp : 0 ≤ p
  · rw [if_pos hp]
    by_cases hlt : p < c.buffer.size
    · have hidx : p.toNat < c.buffer.bytes.length := by omega
      rw [if_pos ⟨hp, hlt⟩, List.getElem?_eq_getElem hidx]
      simp only [Buffer.bytes, List.getElem_ofFn]
    · rw [if_neg (by omega), List.getElem?_eq_none (by omega)]
  · rw [if_neg (by omega), if_neg hp]

/-- Two buffers with something in them are longer together than each of them. -/
theorem not_holds_two {c d : Call} (rest : List Call) (hc : c.buffer.size ≠ 0)
    (hd : d.buffer.size ≠ 0) :
    ¬ Holds (written (c :: d :: rest) fun _ => none) (concatenation (c :: d :: rest)) := by
  intro h
  have hcat : (concatenation (c :: d :: rest)).length
      = c.buffer.size + (d.buffer.size + (concatenation rest).length) := by
    simp only [concatenation, List.flatMap_cons, List.length_append, Buffer.length_bytes]
  -- the last byte of the concatenation is behind every buffer
  have hlast := h ((concatenation (c :: d :: rest)).length - 1 : Nat)
  have hnone : written (c :: d :: rest) (fun _ => none)
      ((concatenation (c :: d :: rest)).length - 1 : Nat) = none := by
    apply written_of_le
    intro e he
    rcases List.mem_cons.mp he with rfl | he
    · omega
    rcases List.mem_cons.mp he with rfl | he
    · omega
    have := size_le_concatenation he
    omega
  rw [hnone, if_pos (Int.natCast_nonneg _), Int.toNat_natCast] at hlast
  have hbeyond := List.getElem?_eq_none_iff.mp hlast.symm
  omega

theorem extends_iff_holds {option : FileOption}
    (hoption : option = .kTrunc ∨ option = .kRWTruncate) :
    Extends option file calls ↔ Holds (written calls fun _ => none) (concatenation calls) := by
  have hopened : openedFile (openOptions option) file = fun _ => none := by
    rcases hoption with rfl | rfl <;> rfl
  unfold Extends
  rw [hopened]
  constructor
  · rintro ⟨fuel, file', hrun, hholds⟩
    rw [← writeAll_unique hrun]
    exact hholds
  · intro hholds
    obtain ⟨fuel, hrun⟩ := exists_writeAll calls fun _ => none
    exact ⟨fuel, _, hrun, hholds⟩

/-- **When calls in turn extend the file**: at most one of them has something to write. -/
theorem writeToFile_extends_iff {option : FileOption}
    (hoption : option = .kTrunc ∨ option = .kRWTruncate) (file : File) (calls : List Call) :
    Extends option file calls ↔ (calls.filter Call.nonEmpty).length ≤ 1 := by
  rw [extends_iff_holds hoption, ← written_filter, ← concatenation_filter]
  have hne : ∀ c ∈ calls.filter Call.nonEmpty, c.buffer.size ≠ 0 := by
    intro c hc
    simpa [Call.nonEmpty] using (List.mem_filter.mp hc).2
  generalize calls.filter Call.nonEmpty = nonEmpty at hne ⊢
  match nonEmpty, hne with
  | [], _ => exact ⟨fun _ => by decide, fun _ p => by simp [written, concatenation]⟩
  | [c], _ => exact ⟨fun _ => Nat.le_refl 1, fun _ => holds_one c⟩
  | c :: d :: rest, hne =>
      have htwo := not_holds_two rest (hne c (by simp)) (hne d (by simp))
      refine ⟨fun h => absurd h htwo, fun h => ?_⟩
      simp only [List.length_cons] at h
      omega

end

/-! ## One byte after the other -/

theorem requested_oneByte {b : Buffer} {i : Nat} (hb : b.size = 1)
    (h : Requested b (fun _ => 1) i) : i = 0 := by
  by_contra hne
  apply h.2 1 (by omega)
  rw [offset_one, hb]

theorem oneByte_fits : 1 < 2 ^ 63 := by decide

/-- A call that writes one byte. -/
def oneByte (x : UInt8) : Call where
  buffer := ⟨fun _ => x, 1, oneByte_fits⟩
  results := fun _ => 1
  kernel := by
    refine ⟨fun i hi => ?_, fun i hi => by decide, fun i hi hneg => ?_⟩
    · rw [requested_oneByte rfl hi]
      exact Int.le_refl 1
    · rw [requested_oneByte rfl hi] at hneg
      exact absurd hneg (by decide)
  complete := by
    intro i hi
    rw [requested_oneByte rfl hi]
    rfl

/-- A call with nothing to write. -/
def noByte : Call where
  buffer := ⟨fun _ => 0, 0, by decide⟩
  results := fun _ => 0
  kernel := by
    refine ⟨fun i hi => absurd rfl (hi.2 0 (Nat.zero_le i)),
      fun i hi => absurd rfl (hi.2 0 (Nat.zero_le i)),
      fun i hi => absurd rfl (hi.2 0 (Nat.zero_le i))⟩
  complete := fun i hi => absurd rfl (hi.2 0 (Nat.zero_le i))

/-- A call with nothing to write does no harm. -/
theorem writeToFile_extends_iff_noByte :
    Extends .kTrunc (fun _ => some 9) [noByte, oneByte 7, noByte] :=
  (writeToFile_extends_iff (Or.inl rfl) _ _).mpr (by decide)

/-- The second byte replaces the first. -/
theorem writeToFile_replaces :
    (∃ file, writeAll 2 [oneByte 1, oneByte 2] (openedFile (openOptions .kTrunc) fun _ => some 9)
        = some file ∧ file 0 = some 2 ∧ file 1 = none) ∧
      ¬ Extends .kTrunc (fun _ => some 9) [oneByte 1, oneByte 2] := by
  refine ⟨⟨_, rfl, rfl, rfl⟩, fun h => ?_⟩
  rw [extends_iff_holds (Or.inl rfl)] at h
  exact not_holds_two [] (by decide) (by decide) h

end Zab.AsyncFile
