import MmapIo.Mmap
/-!
# Iterator — mutable chunks

`ChunkIteratorMut::drive` (`iterator.rs`): the closure runs over the chunks of the mapping in order, under one write guard,
until it fails or the mapping ends.  A closure may carry state from call to call, so what it does is a function of the
chunks it was handed before as well.  `drive_bytes` says what it leaves in the mapping: `mapChunks` of the bytes, a
recursion over the bytes themselves.
-/
namespace MmapIo

open Bytes Word

/-- An `FnMut(u64, &mut [u8]) -> Result<(), E>`: given the chunks of its earlier calls, the offset and the chunk, what it
leaves in the chunk and its result. -/
structure ChunkFn (E : Type) where
  run : List (List UInt8) → Nat → List UInt8 → List UInt8 × Except E Unit
  length_run : ∀ past offset chunk, (run past offset chunk).1.length = chunk.length

variable {E : Type}

/-- The loop of `drive`: its result, the final offset and the state. -/
def driveLoop (f : ChunkFn E) (chunkSize : Nat) (hsize : 0 < chunkSize) (total : Nat) (past : List (List UInt8))
    (offset : Nat) (s : Inner) : Except E Unit × Nat × Inner :=
  if offset < total then
    let stop := offset + min (total - offset) chunkSize
    let chunk := s.bytes.extract offset stop
    let r := f.run past offset chunk
    let s := s.store offset r.1
    match r.2 with
    | .error e => (.error e, stop, s)
    | .ok () => driveLoop f chunkSize hsize total (past ++ [chunk]) stop s
  else (.ok (), offset, s)
termination_by total - offset

def drive (f : ChunkFn E) (chunkSize : Nat) (s : Inner) : Except MmapIoError (Except E Unit) × Inner :=
  match writeLock s "chunks_mut requires a ReadWrite or writable CopyOnWrite mapping" with
  | .error e => (.error e, s)
  | .ok () =>
    if h : chunkSize = 0 then (.ok (.ok ()), s) else
    let (result, offset, s) := driveLoop f chunkSize (Nat.pos_of_ne_zero h) s.mapLen [] 0 s
    (.ok result, recordWrite offset s)

def forEachMutLegacy (f : ChunkFn E) (chunkSize : Nat) (s : Inner) : Except MmapIoError (Except E Unit) × Inner :=
  drive f chunkSize s

/-- `for_each_mut`: the closure's own error becomes the result. -/
def forEachMut (f : ChunkFn MmapIoError) (chunkSize : Nat) (s : Inner) : Except MmapIoError Unit × Inner :=
  match drive f chunkSize s with
  | (.error e, s) => (.error e, s)
  | (.ok r, s) => (r, s)

/-! ## The chunks as a recursion over the bytes -/

/-- The closure over the rest of the bytes, from `offset` on: what it leaves, and its result. -/
def mapChunks (f : ChunkFn E) (chunkSize : Nat) (hsize : 0 < chunkSize) (past : List (List UInt8)) (offset : Nat)
    (rest : List UInt8) : List UInt8 × Except E Unit :=
  if rest = [] then ([], .ok ()) else
  let chunk := rest.take chunkSize
  let r := f.run past offset chunk
  match r.2 with
  | .error e => (r.1 ++ rest.drop chunkSize, .error e)
  | .ok () =>
    let t := mapChunks f chunkSize hsize (past ++ [chunk]) (offset + chunk.length) (rest.drop chunkSize)
    (r.1 ++ t.1, t.2)
termination_by rest.length
decreasing_by
  rename_i h
  have hpos := List.length_pos_iff.2 h
  rw [List.length_drop]
  omega

section

variable {f : ChunkFn E} {chunkSize : Nat} {hsize : 0 < chunkSize} {past : List (List UInt8)} {offset : Nat}
  {rest : List UInt8}

theorem mapChunks_nil : mapChunks f chunkSize hsize past offset [] = ([], .ok ()) := by
  rw [mapChunks, if_pos rfl]

theorem mapChunks_error (hrest : rest ≠ []) {e : E} (he : (f.run past offset (rest.take chunkSize)).2 = .error e) :
    mapChunks f chunkSize hsize past offset rest =
      ((f.run past offset (rest.take chunkSize)).1 ++ rest.drop chunkSize, .error e) := by
  rw [mapChunks, if_neg hrest]
  simp only [he]

theorem mapChunks_ok (hrest : rest ≠ []) (hok : (f.run past offset (rest.take chunkSize)).2 = .ok ()) :
    mapChunks f chunkSize hsize past offset rest =
      ((f.run past offset (rest.take chunkSize)).1 ++
        (mapChunks f chunkSize hsize (past ++ [rest.take chunkSize]) (offset + (rest.take chunkSize).length)
          (rest.drop chunkSize)).1,
        (mapChunks f chunkSize hsize (past ++ [rest.take chunkSize]) (offset + (rest.take chunkSize).length)
          (rest.drop chunkSize)).2) := by
  rw [mapChunks, if_neg hrest]
  simp only [hok]

theorem length_mapChunks (past : List (List UInt8)) (offset : Nat) (rest : List UInt8) :
    (mapChunks f chunkSize hsize past offset rest).1.length = rest.length := by
  induction hn : rest.length using Nat.strong_induction_on generalizing past offset rest with
  | _ n ih =>
  by_cases hrest : rest = []
  · rw [hrest] at hn ⊢
    rw [mapChunks_nil]
    exact hn
  · have hpos := List.length_pos_iff.2 hrest
    have hrun := f.length_run past offset (rest.take chunkSize)
    rw [List.length_take] at hrun
    cases hr : (f.run past offset (rest.take chunkSize)).2 with
    | error e =>
      rw [mapChunks_error hrest hr, List.length_append, List.length_drop]
      omega
    | ok u =>
      rw [mapChunks_ok hrest hr, List.length_append,
        ih (rest.drop chunkSize).length (by rw [List.length_drop]; omega) _ _ _ rfl, List.length_drop]
      omega

/-- **The loop writes `mapChunks` of the rest of the mapping**, from its offset on, and touches nothing else. -/
theorem driveLoop_eq (total : Nat) (past : List (List UInt8)) (offset : Nat) (s : Inner) (hrw : s.map = .rw total)
    (hfile : total ≤ s.file.length) (hoff : offset ≤ total) :
    (driveLoop f chunkSize hsize total past offset s).1 =
      (mapChunks f chunkSize hsize past offset (s.bytes.drop offset)).2 ∧
    (driveLoop f chunkSize hsize total past offset s).2.2 =
      { s with file := s.file.take offset ++
          ((mapChunks f chunkSize hsize past offset (s.bytes.drop offset)).1 ++ s.file.drop total) } := by
  have hbytes : s.bytes = s.file.take total := Inner.bytes_rw hrw
  induction hn : total - offset using Nat.strong_induction_on generalizing past offset s with
  | _ n ih =>
  rw [driveLoop]
  by_cases hlt : offset < total
  · -- the chunk at `offset` is the head of the rest of the mapping
    have hrlen : (s.bytes.drop offset).length = total - offset := by
      rw [List.length_drop, hbytes, List.length_take, Nat.min_eq_left hfile]
    have hrest : s.bytes.drop offset ≠ [] := List.length_pos_iff.1 (by omega)
    have hchunk : s.bytes.extract offset (offset + min (total - offset) chunkSize) =
        (s.bytes.drop offset).take chunkSize := by
      rw [List.extract, Nat.add_sub_cancel_left, ← hrlen, Nat.min_comm, ← List.take_eq_take_min]
    have hclen : ((s.bytes.drop offset).take chunkSize).length = min (total - offset) chunkSize := by
      rw [List.length_take, hrlen, Nat.min_comm]
    rw [if_pos hlt]
    simp only [hchunk, Inner.store_rw hrw]
    have holen := f.length_run past offset ((s.bytes.drop offset).take chunkSize)
    rw [hclen] at holen
    have hfits : offset + (f.run past offset ((s.bytes.drop offset).take chunkSize)).1.length ≤ s.file.length := by omega
    -- what is left after the chunk, in the old mapping and in the new one
    have hdrop : (s.bytes.drop offset).drop chunkSize =
        (s.file.take total).drop (offset + min (total - offset) chunkSize) := by
      rw [List.drop_drop, hbytes]
      rcases Nat.le_total chunkSize (total - offset) with hle | hle
      · rw [Nat.min_eq_right hle]
      · rw [Nat.min_eq_left hle, List.drop_eq_nil_of_le (by rw [List.length_take]; omega),
          List.drop_eq_nil_of_le (by rw [List.length_take]; omega)]
    generalize hout : f.run past offset ((s.bytes.drop offset).take chunkSize) = out at holen hfits ⊢
    cases hr : out.2 with
    | error e =>
      rw [mapChunks_error hrest (by rw [hout]; exact hr), hout]
      refine ⟨rfl, ?_⟩
      have hcut : s.file.drop (offset + out.1.length) = (s.bytes.drop offset).drop chunkSize ++ s.file.drop total := by
        rw [hdrop, holen, ← List.drop_append_of_le_length (by rw [List.length_take]; omega), List.take_append_drop]
      simp only [splice, hcut, List.append_assoc]
    | ok u =>
      rw [mapChunks_ok hrest (by rw [hout]; exact hr), hclen, hout]
      have hrw' : ({ s with file := splice s.file offset out.1 } : Inner).map = .rw total := hrw
      have hbytes' := Inner.bytes_rw hrw'
      have hnext := ih (total - (offset + min (total - offset) chunkSize)) (by omega)
        (past ++ [(s.bytes.drop offset).take chunkSize]) (offset + min (total - offset) chunkSize)
        { s with file := splice s.file offset out.1 } hrw' (by rw [length_splice hfits]; exact hfile) (by omega) hbytes' rfl
      have hrest' : ({ s with file := splice s.file offset out.1 } : Inner).bytes.drop
          (offset + min (total - offset) chunkSize) = (s.bytes.drop offset).drop chunkSize := by
        rw [hbytes', hdrop, List.drop_take, List.drop_take, drop_splice hfits (by omega)]
      rw [hrest'] at hnext
      refine ⟨hnext.1, hnext.2.trans ?_⟩
      simp only
      rw [drop_splice hfits (by omega), ← holen, take_splice_end hfits]
      simp only [List.append_assoc]
  · have heq : offset = total := by omega
    subst heq
    have hnil : s.bytes.drop offset = [] := List.drop_eq_nil_of_le (by rw [hbytes, List.length_take]; omega)
    rw [if_neg hlt, hnil, mapChunks_nil]
    simp only [List.nil_append, List.take_append_drop, and_self]

/-- **`drive` on a shared mapping** writes `mapChunks` of its bytes and counts the bytes handed out. -/
theorem drive_eq {s : Inner} {total : Nat} (hrw : s.map = .rw total) (hfile : total ≤ s.file.length)
    (f : ChunkFn E) (hsize : 0 < chunkSize) :
    (drive f chunkSize s).1 = .ok (mapChunks f chunkSize hsize [] 0 s.bytes).2 ∧
      SameData { s with file := (mapChunks f chunkSize hsize [] 0 s.bytes).1 ++ s.file.drop total } (drive f chunkSize s).2 := by
  obtain ⟨hres, hstate⟩ : _ ∧ _ := driveLoop_eq total [] 0 s hrw hfile (Nat.zero_le _)
  unfold drive
  rw [writeLock_rw hrw, Inner.mapLen_rw hrw]
  simp only [Nat.pos_iff_ne_zero.1 hsize, dite_false]
  refine ⟨congrArg Except.ok hres, ?_⟩
  rw [hstate]
  exact recordWrite_same _ _

end

end MmapIo
