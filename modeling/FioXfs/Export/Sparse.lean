import FioXfs.Lib.SparseFile
import FioXfs.Volume.Contents
set_option autoImplicit false

/-!
# Files written with holes (`export.rs`)

A chunk is gone through in pieces, and the pieces in runs of one kind: a run of zeroes is seeked
over, any other written.  What the file misses of a hole at its end comes with its final length.
-/

namespace FioXfs

open FioXfs.Lib FioXfs.Bmap

/-- Zeroes are looked for in pieces this large. -/
def PIECE : Nat := 4096

/-- Whether the piece at `i` is all zeroes. -/
def zeroAt (buf : Bytes) (i : Nat) : Bool :=
  (slice buf i (min (i + PIECE) buf.length - i)).all fun b => decide (b = 0)

/-- Where the run of pieces of one kind ends that has got to `at_`. -/
def runEnd (buf : Bytes) (runZero : Bool) (at_ : Nat) : Nat :=
  if at_ < buf.length ∧ zeroAt buf at_ = runZero then
    runEnd buf runZero (min (at_ + PIECE) buf.length)
  else at_
termination_by buf.length - at_
decreasing_by
  simp only [PIECE]
  omega

section
variable {buf : Bytes} {runZero : Bool} {at_ : Nat}

theorem le_runEnd : at_ ≤ runEnd buf runZero at_ := by
  fun_induction runEnd buf runZero at_ with
  | case1 at_ h ih => omega
  | case2 at_ h => exact Nat.le_refl _

theorem runEnd_le (h : at_ ≤ buf.length) : runEnd buf runZero at_ ≤ buf.length := by
  fun_induction runEnd buf runZero at_ with
  | case1 at_ hrun ih => exact ih (Nat.min_le_right _ _)
  | case2 at_ hrun => exact h

/-- A run is of the kind of its first piece, so it takes that in. -/
theorem lt_runEnd (h : at_ < buf.length) : at_ < runEnd buf (zeroAt buf at_) at_ := by
  rw [runEnd, if_pos ⟨h, rfl⟩]
  have hle : min (at_ + PIECE) buf.length ≤
      runEnd buf (zeroAt buf at_) (min (at_ + PIECE) buf.length) := le_runEnd
  simp only [PIECE] at hle ⊢
  omega

/-- The bytes of a piece that is all zeroes. -/
theorem getElem?_of_zeroAt {i : Nat} (h : zeroAt buf at_ = true) (hi : at_ ≤ i)
    (hi' : i < min (at_ + PIECE) buf.length) : buf[i]? = some 0 := by
  have hmem : (slice buf at_ (min (at_ + PIECE) buf.length - at_))[i - at_]? = buf[i]? := by
    rw [getElem?_slice, if_pos (by omega), Nat.add_sub_cancel' hi]
  have hget : buf[i]? = some buf[i] := List.getElem?_eq_getElem (by omega)
  have hzero := List.all_eq_true.mp h _ (List.mem_of_getElem? (hmem.trans hget))
  rw [hget, of_decide_eq_true hzero]

/-- The bytes of a run of zeroes. -/
theorem getElem?_of_runEnd {i : Nat} (hi : at_ ≤ i) (hi' : i < runEnd buf true at_) :
    buf[i]? = some 0 := by
  fun_induction runEnd buf true at_ with
  | case1 at_ hrun ih =>
    by_cases hpiece : i < min (at_ + PIECE) buf.length
    · exact getElem?_of_zeroAt hrun.2 hi hpiece
    · exact ih (by omega) hi'
  | case2 at_ hrun => omega

end

/-- What is asked of the file for `buf` from `at_` on. -/
def sparseCalls (buf : Bytes) (at_ : Nat) : List OpenFile.Call :=
  if _h : at_ < buf.length then
    let runZero := zeroAt buf at_
    let stop := runEnd buf runZero at_
    (if runZero then .seek (stop - at_) else .write (slice buf at_ (stop - at_))) ::
      sparseCalls buf stop
  else []
termination_by buf.length - at_
decreasing_by
  have hlt := lt_runEnd _h
  omega

/-- Write `buf` at the file's position, seeking over every all-zero piece. -/
def writeSparse (f : OpenFile) (buf : Bytes) : OpenFile :=
  (sparseCalls buf 0).foldl OpenFile.perform f

/-- The file is what the chunks are, and only zeroes were seeked over on the way, some bytes with
every call. -/
structure KeepsContents (chunks : List Bytes) : Prop where
  contents : ((chunks.foldl writeSparse .new).setLen chunks.flatten.length).bytes = chunks.flatten
  zeroes_skipped : ∀ buf ∈ chunks, ∀ pre n post, sparseCalls buf 0 = pre ++ .seek n :: post →
    slice buf (pre.flatMap OpenFile.Call.bytes).length n = List.replicate n 0
  calls_advance : ∀ buf ∈ chunks, ∀ c ∈ sparseCalls buf 0, c.bytes ≠ []

section
variable {buf : Bytes} {at_ : Nat}

/-- One call stands for the bytes of its run. -/
theorem call_bytes (h : at_ < buf.length) :
    (if zeroAt buf at_ then OpenFile.Call.seek (runEnd buf (zeroAt buf at_) at_ - at_)
      else .write (slice buf at_ (runEnd buf (zeroAt buf at_) at_ - at_))).bytes =
      slice buf at_ (runEnd buf (zeroAt buf at_) at_ - at_) := by
  cases hz : zeroAt buf at_ with
  | false => rfl
  | true =>
    have hle : runEnd buf true at_ ≤ buf.length := runEnd_le h.le
    refine List.ext_getElem? fun i => ?_
    rw [if_pos rfl, OpenFile.Call.bytes, List.getElem?_replicate, getElem?_slice]
    by_cases hi : i < runEnd buf true at_ - at_
    · have hzero : buf[at_ + i]? = some 0 := getElem?_of_runEnd (Nat.le_add_right _ _) (by omega)
      rw [if_pos hi, if_pos hi, hzero]
    · rw [if_neg hi, if_neg hi]

/-- The calls stand for the bytes, whatever the kinds of the pieces. -/
theorem flatMap_sparseCalls (buf : Bytes) (at_ : Nat) :
    (sparseCalls buf at_).flatMap OpenFile.Call.bytes = buf.drop at_ := by
  fun_induction sparseCalls buf at_ with
  | case1 at_ h runZero stop ih =>
    have hlt : at_ < stop := lt_runEnd h
    rw [List.flatMap_cons, ih, call_bytes h]
    have hdrop : buf.drop stop = (buf.drop at_).drop (stop - at_) := by
      rw [List.drop_drop, Nat.add_sub_cancel' hlt.le]
    rw [hdrop]
    exact List.take_append_drop _ _
  | case2 at_ h => exact (List.drop_eq_nil_of_le (not_lt.mp h)).symm

/-- A call takes in a byte at least. -/
theorem bytes_ne_nil_of_mem {c : OpenFile.Call} (hc : c ∈ sparseCalls buf at_) : c.bytes ≠ [] := by
  fun_induction sparseCalls buf at_ with
  | case1 at_ h runZero stop ih =>
    rcases List.mem_cons.mp hc with rfl | hc
    · have hlt : at_ < stop := lt_runEnd h
      have hle : stop ≤ buf.length := runEnd_le h.le
      rw [call_bytes h]
      have hlen : (slice buf at_ (stop - at_)).length = stop - at_ := length_slice (by omega)
      exact List.ne_nil_of_length_pos (by rw [hlen]; omega)
    · exact ih hc
  | case2 at_ h => cases hc

/-- What a seek leaves out is zeroes. -/
theorem slice_of_seek {pre post : List OpenFile.Call} {n : Nat}
    (h : sparseCalls buf 0 = pre ++ .seek n :: post) :
    slice buf (pre.flatMap OpenFile.Call.bytes).length n = List.replicate n 0 := by
  have hbuf := flatMap_sparseCalls buf 0
  rw [h, List.flatMap_append, List.flatMap_cons, OpenFile.Call.bytes, List.drop_zero] at hbuf
  rw [← hbuf, slice, List.drop_left]
  exact List.take_left' List.length_replicate

/-- A chunk written is its bytes added. -/
theorem standsFor_writeSparse {f : OpenFile} {d : Bytes} (h : f.StandsFor d) (buf : Bytes) :
    (writeSparse f buf).StandsFor (d ++ buf) := by
  have hrun := h.foldl_perform (sparseCalls buf 0)
  rwa [flatMap_sparseCalls, List.drop_zero] at hrun

theorem standsFor_foldl_writeSparse {f : OpenFile} {d : Bytes} (h : f.StandsFor d)
    (chunks : List Bytes) : (chunks.foldl writeSparse f).StandsFor (d ++ chunks.flatten) := by
  induction chunks generalizing f d with
  | nil => simpa using h
  | cons buf chunks ih =>
    rw [List.foldl_cons, List.flatten_cons, ← List.append_assoc]
    exact ih (standsFor_writeSparse h buf)

/-- A file that is extracted piece by piece and given its size has its contents. -/
theorem extracted_file_eq {v : Volume} {i : Inode} {es : List Extent} (h : v.ReadsContents i es) :
    ∃ ps, v.readPieces i es i.size (i.size + 1) 0 = ⟨ps, none⟩ ∧
      ((ps.foldl writeSparse .new).setLen i.size).bytes = v.contents es i.size := by
  obtain ⟨ps, hps, hflat⟩ := h.packed
  refine ⟨ps, hps, ?_⟩
  have hstands := standsFor_foldl_writeSparse OpenFile.standsFor_new ps
  rw [List.nil_append, hflat] at hstands
  have hset := hstands.setLen_bytes
  rwa [Volume.contents, length_window] at hset

/-- A file written chunk by chunk and given its length is the chunks. -/
theorem sparse_file_keeps (chunks : List Bytes) : KeepsContents chunks where
  contents := (standsFor_foldl_writeSparse OpenFile.standsFor_new chunks).setLen_bytes
  zeroes_skipped _ _ _ _ _ h := slice_of_seek h
  calls_advance _ _ _ hc := bytes_ne_nil_of_mem hc

end

end FioXfs
