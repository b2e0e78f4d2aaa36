import MmapIo.Utils
/-!
# RawRange — the raw layer's offset and length arithmetic

`resolve_len`, `layout` and `flush_span` of `raw/range.rs`, and the spans the managed layer computes itself
(`advise_mapped`, `lock_range`).  The platform limits are parameters, as in the source.  The main result is
`window_geometry`: over both pointer widths and every request, the three functions accept exactly the windows that lie in
the file and in the address space, and every span handed to the OS is page aligned and inside the mapping.
-/
namespace MmapIo

open Word

/-- Layout of one OS mapping that covers a caller's window. -/
structure Layout where
  alignedOffset : Nat
  delta : Nat
  len : Nat
  mapLen : Nat
  deriving DecidableEq, Repr

/-- `resolve_len`: the window length for a file-backed mapping. -/
def resolveLen (w : Width) (fileLen offset : Nat) (len : Option Nat) (maxLen : Nat) : Except RangeError Nat := do
  let available ← okOr (checkedSub fileLen offset) (.offsetPastEnd offset fileLen)
  let len ← match len with
    | some requested => do
      let requestedU64 ← okOr (tryFrom 64 requested) (.lengthNotU64 requested)
      if requestedU64 > available then .error (.pastEof offset requested fileLen) else .ok requested
    | none => okOr (tryFrom w.bits available) (.windowTooBig available)
  if len > maxLen then .error (.exceedsMax len maxLen) else .ok len

/-- `layout`: the OS mapping for a window of `len` bytes at `offset`, given the OS offset granularity. -/
def layout (w : Width) (offset len granularity maxLen : Nat) : Except RangeError Layout := do
  if ¬ granularity.isPowerOfTwo then .error (.badGranularity granularity) else
  let granU64 ← okOr (tryFrom 64 granularity) (.granularityNotU64 granularity)
  let deltaU64 := offset &&& (granU64 - 1)
  let delta ← okOr (tryFrom w.bits deltaU64) (.deltaNotUsize deltaU64)
  let alignedOffset := offset - deltaU64
  let mapLen ← okOr ((checkedAdd w.bits len delta).filter (fun n => decide (n ≤ maxLen)))
    (.layoutExceedsMax len delta maxLen)
  .ok { alignedOffset, delta, len, mapLen }

/-- `flush_span`: the span of the OS mapping to hand to `msync` / `FlushViewOfFile`, or `none` for an empty range. -/
def flushSpan (w : Width) (delta windowLen offset flushLen page : Nat) : Except RangeError (Option (Nat × Nat)) := do
  let remaining ← okOr (checkedSub windowLen offset) (.flushOffset offset windowLen)
  if flushLen > remaining then .error (.flushPastEnd offset flushLen windowLen) else
  if flushLen = 0 then .ok none else
  if ¬ page.isPowerOfTwo then .error (.badPage page) else
  let absStart ← okOr (checkedAdd w.bits delta offset) .flushOverflow
  let absEnd ← okOr (checkedAdd w.bits absStart flushLen) .flushOverflow
  let alignedStart := absStart &&& notMask w.bits (page - 1)
  .ok (some (alignedStart, absEnd - alignedStart))

/-- The arithmetic of `RawMmapOptions::map_impl`: the window length, then its layout. -/
def mapImplLayout (w : Width) (fileLen offset : Nat) (len : Option Nat) (granularity : Nat) :
    Except RangeError Layout := do
  let len ← resolveLen w fileLen offset len w.maxLen
  layout w offset len granularity w.maxLen

/-- A range of the managed mapping, widened down to a page boundary. -/
def pageSpan (w : Width) (page total offset len : Nat) : Except MmapIoError (Nat × Nat) := do
  let (start, e) ← sliceRange w offset len total
  let alignedStart := start - start % page
  .ok (alignedStart, e - alignedStart)

/-- The span `advise` hands to `advise_span` (through `advise_mapped`); `none` for an empty request. -/
def adviseMapped (w : Width) (page total offset len : Nat) : Except MmapIoError (Option (Nat × Nat)) :=
  if len = 0 then .ok none else (pageSpan w page total offset len).map some

/-- The span `lock_range` hands to `lock_span`; `none` for an empty request. -/
def lockRange (w : Width) (page total offset len : Nat) : Except MmapIoError (Option (Nat × Nat)) :=
  if len = 0 then .ok none else (pageSpan w page total offset len).map some

/-- The bytes a mapping with this layout exposes: the OS maps `mapLen` bytes from `alignedOffset`, the window starts
`delta` bytes in. -/
def Layout.window (l : Layout) (file : List UInt8) : List UInt8 :=
  (((file.drop l.alignedOffset).take l.mapLen).drop l.delta).take l.len

/-! ## What each function accepts -/

theorem resolveLen_eq {w : Width} {fileLen offset : Nat} {len : Option Nat} {maxLen : Nat} (hmax : maxLen < 2 ^ w.bits)
    (n : Nat) : resolveLen w fileLen offset len maxLen = .ok n ↔
      offset ≤ fileLen ∧ n = len.getD (fileLen - offset) ∧ n ≤ fileLen - offset ∧ n ≤ maxLen := by
  have hbits : 2 ^ w.bits ≤ 2 ^ 64 := Nat.pow_le_pow_right (by decide) w.bits_le
  unfold resolveLen
  by_cases hoff : offset ≤ fileLen
  · rw [checkedSub_of_le hoff]
    simp only [okOr_some, bind, Except.bind, hoff, true_and]
    cases len with
    | some requested =>
      simp only [Option.getD_some]
      by_cases hu : requested < 2 ^ 64
      · rw [tryFrom_of_lt hu]
        simp only [okOr_some]
        by_cases hr : requested > fileLen - offset
        · rw [if_pos hr]
          simp only [reduceCtorEq, false_iff]
          omega
        · rw [if_neg hr]
          by_cases hm : requested > maxLen
          · rw [if_pos hm]
            simp only [reduceCtorEq, false_iff]
            omega
          · rw [if_neg hm]
            simp only [Except.ok.injEq]
            omega
      · rw [tryFrom_of_ge (Nat.not_lt.1 hu)]
        simp only [okOr_none, reduceCtorEq, false_iff]
        omega
    | none =>
      simp only [Option.getD_none]
      by_cases hu : fileLen - offset < 2 ^ w.bits
      · rw [tryFrom_of_lt hu]
        simp only [okOr_some]
        by_cases hm : fileLen - offset > maxLen
        · rw [if_pos hm]
          simp only [reduceCtorEq, false_iff]
          omega
        · rw [if_neg hm]
          simp only [Except.ok.injEq]
          omega
      · rw [tryFrom_of_ge (Nat.not_lt.1 hu)]
        simp only [okOr_none, reduceCtorEq, false_iff]
        omega
  · rw [checkedSub_of_lt (Nat.not_le.1 hoff)]
    simp only [okOr_none, bind, Except.bind, reduceCtorEq, false_iff]
    omega

theorem layout_eq {w : Width} {offset len G maxLen : Nat} (hG : G.isPowerOfTwo) (hGw : G < 2 ^ w.bits)
    (hmax : maxLen < 2 ^ w.bits) (l : Layout) : layout w offset len G maxLen = .ok l ↔
      offset % G + len ≤ maxLen ∧ l = ⟨offset - offset % G, offset % G, len, offset % G + len⟩ := by
  have hbits : 2 ^ w.bits ≤ 2 ^ 64 := Nat.pow_le_pow_right (by decide) w.bits_le
  have hmod : offset % G < G := Nat.mod_lt _ (Nat.pos_of_isPowerOfTwo hG)
  unfold layout
  rw [if_neg (not_not.2 hG), tryFrom_of_lt (Nat.lt_of_lt_of_le hGw hbits)]
  simp only [okOr_some, bind, Except.bind, and_pred_eq_mod offset hG]
  rw [tryFrom_of_lt (Nat.lt_trans hmod hGw)]
  simp only [okOr_some]
  by_cases h : offset % G + len ≤ maxLen
  · rw [checkedAdd_of_lt (by omega), Option.filter_some_pos (by simp; omega), okOr_some]
    simp only [Except.ok.injEq, h, true_and, Nat.add_comm len]
    exact eq_comm
  · have hnone : (checkedAdd w.bits len (offset % G)).filter (fun n => decide (n ≤ maxLen)) = none := by
      unfold checkedAdd
      split
      · exact Option.filter_some_neg (by simp; omega)
      · rfl
    rw [hnone]
    simp [h]

/-- **The window arithmetic accepts exactly the windows inside the file and the address space**, with one layout. -/
theorem mapImplLayout_eq {w : Width} {fileLen offset : Nat} {len : Option Nat} {G : Nat} (hG : G.isPowerOfTwo)
    (hGw : G < 2 ^ w.bits) (l : Layout) : mapImplLayout w fileLen offset len G = .ok l ↔
      (offset ≤ fileLen ∧ len.getD (fileLen - offset) ≤ fileLen - offset ∧
        offset % G + len.getD (fileLen - offset) ≤ w.maxLen) ∧
      l = ⟨offset - offset % G, offset % G, len.getD (fileLen - offset), offset % G + len.getD (fileLen - offset)⟩ := by
  unfold mapImplLayout
  cases hr : resolveLen w fileLen offset len w.maxLen with
  | ok n =>
    obtain ⟨hoff, hn, hav, hmax⟩ := (resolveLen_eq w.maxLen_lt n).1 hr
    subst hn
    simp only [bind, Except.bind]
    rw [layout_eq hG hGw w.maxLen_lt]
    exact and_congr_left (fun _ => ⟨fun h => ⟨hoff, hav, h⟩, fun h => h.2.2⟩)
  | error e =>
    simp only [bind, Except.bind, reduceCtorEq, false_iff]
    rintro ⟨⟨hoff, hav, hmax⟩, -⟩
    rw [(resolveLen_eq w.maxLen_lt _).2 ⟨hoff, rfl, hav, by omega⟩] at hr
    cases hr

/-- **The flush arithmetic, in full**: inside a window that fits the address space only a range outside the window is
refused. -/
theorem flushSpan_eq {w : Width} {delta windowLen page : Nat} (hfit : delta + windowLen ≤ w.maxLen)
    (hpage : page.isPowerOfTwo) (hpw : page < 2 ^ w.bits) (offset flushLen : Nat) :
    flushSpan w delta windowLen offset flushLen page =
      if windowLen < offset then .error (.flushOffset offset windowLen)
      else if windowLen - offset < flushLen then .error (.flushPastEnd offset flushLen windowLen)
      else if flushLen = 0 then .ok none
      else .ok (some (delta + offset - (delta + offset) % page,
        delta + offset + flushLen - (delta + offset - (delta + offset) % page))) := by
  have hw := w.maxLen_lt
  unfold flushSpan
  by_cases hoff : windowLen < offset
  · rw [if_pos hoff, checkedSub_of_lt hoff]
    rfl
  · rw [if_neg hoff, checkedSub_of_le (Nat.not_lt.1 hoff)]
    simp only [okOr_some, bind, Except.bind]
    by_cases hlen : windowLen - offset < flushLen
    · rw [if_pos hlen, if_pos hlen]
    · rw [if_neg hlen, if_neg hlen]
      by_cases h0 : flushLen = 0
      · rw [if_pos h0, if_pos h0]
      · rw [if_neg h0, if_neg h0, if_neg (not_not.2 hpage), checkedAdd_of_lt (show delta + offset < 2 ^ w.bits by omega)]
        simp only [okOr_some]
        rw [checkedAdd_of_lt (show delta + offset + flushLen < 2 ^ w.bits by omega)]
        simp only [okOr_some]
        rw [and_notMask hpage (Nat.le_of_lt hpw) (by omega)]

/-- **The managed layer's page span is the raw layer's flush span of the same range**, on a mapping at file offset 0. -/
theorem pageSpan_eq {w : Width} {page total offset len : Nat} (htotal : total ≤ w.maxLen) :
    pageSpan w page total offset len =
      if offset + len ≤ total then .ok (offset - offset % page, offset + len - (offset - offset % page))
      else .error (.outOfBounds offset len total) := by
  unfold pageSpan
  rw [sliceRange_eq htotal]
  split <;> rfl

/-- **A window shows the file's bytes from its offset**: byte `k` of the window is byte `offset + k` of the file. -/
theorem Layout.window_eq {l : Layout} {offset : Nat} (file : List UInt8) (ho : l.alignedOffset + l.delta = offset)
    (hm : l.mapLen = l.delta + l.len) : l.window file = (file.drop offset).take l.len := by
  unfold Layout.window
  rw [hm, List.drop_take, List.drop_drop, Nat.add_sub_cancel_left, ho, List.take_take, Nat.min_self]

/-! ## The geometry of a window -/

/-- **What a flush of `[o, o + n)` hands to the OS**: nothing outside the window is accepted, an empty range is nothing,
and the span of any other range starts at the page holding its first byte and ends with its last. -/
def FlushesInside (w : Width) (l : Layout) (P : Nat) : Prop :=
  ∀ o n,
    ((∃ e, flushSpan w l.delta l.len o n P = .error e) ↔ l.len < o ∨ l.len - o < n) ∧
    (flushSpan w l.delta l.len o n P = .ok none ↔ o ≤ l.len ∧ n ≤ l.len - o ∧ n = 0) ∧
    (o ≤ l.len → n ≤ l.len - o → n ≠ 0 → ∃ start count,
      flushSpan w l.delta l.len o n P = .ok (some (start, count)) ∧ P ∣ start ∧ start ≤ l.delta + o ∧
      l.delta + o < start + P ∧ start + count = l.delta + o + n ∧ l.delta + o + n ≤ l.mapLen) ∧
    flushSpan w l.delta l.len o n P ≠ .error .flushOverflow

/-- **What `advise` and `lock` hand to the OS** for `[o, o + n)` of a managed mapping of `total` bytes: the range is
refused exactly when it leaves the mapping; otherwise the span is the page-aligned one the raw layer would flush. -/
def ManagedSpansInside (w : Width) (span : Nat → Nat → Nat → Except MmapIoError (Option (Nat × Nat))) (P : Nat) : Prop :=
  ∀ total, total ≤ w.maxLen → ∀ o n,
    (n = 0 → span total o n = .ok none) ∧
    (n ≠ 0 → total < o + n → span total o n = .error (.outOfBounds o n total)) ∧
    (n ≠ 0 → o + n ≤ total → ∃ start count, span total o n = .ok (some (start, count)) ∧
      flushSpan w 0 total o n P = .ok (some (start, count)) ∧ P ∣ start ∧ start ≤ o ∧ o < start + P ∧ 0 < count ∧
      start + count = o + n ∧ start + count ≤ total)

theorem flushesInside {w : Width} {l : Layout} {P : Nat} (hm : l.mapLen = l.delta + l.len) (hfit : l.mapLen ≤ w.maxLen)
    (hP : P.isPowerOfTwo) (hPw : P < 2 ^ w.bits) : FlushesInside w l P := by
  intro o n
  have hspan := flushSpan_eq (hm ▸ hfit) hP hPw o n
  obtain ⟨hdvd, hle, hlt⟩ := round_down (l.delta + o) (Nat.pos_of_isPowerOfTwo hP)
  by_cases ho : l.len < o
  · rw [if_pos ho] at hspan
    rw [hspan]
    refine ⟨⟨fun _ => Or.inl ho, fun _ => ⟨_, rfl⟩⟩, ⟨fun h => (by cases h), fun h => (by omega)⟩, fun h => (by omega), ?_⟩
    intro h
    cases h
  · rw [if_neg ho] at hspan
    by_cases hn : l.len - o < n
    · rw [if_pos hn] at hspan
      rw [hspan]
      refine ⟨⟨fun _ => Or.inr hn, fun _ => ⟨_, rfl⟩⟩, ⟨fun h => (by cases h), fun h => (by omega)⟩,
        fun _ h => (by omega), ?_⟩
      intro h
      cases h
    · rw [if_neg hn] at hspan
      by_cases h0 : n = 0
      · rw [if_pos h0] at hspan
        rw [hspan]
        refine ⟨⟨fun ⟨_, h⟩ => (by cases h), fun h => (by omega)⟩, ⟨fun _ => ⟨by omega, by omega, h0⟩, fun _ => rfl⟩,
          fun _ _ h => absurd h0 h, ?_⟩
        intro h
        cases h
      · rw [if_neg h0] at hspan
        rw [hspan]
        refine ⟨⟨fun ⟨_, h⟩ => (by cases h), fun h => (by omega)⟩, ⟨fun h => (by cases h), fun h => absurd h.2.2 h0⟩,
          fun _ _ _ => ⟨_, _, rfl, hdvd, hle, hlt, by omega, by omega⟩, ?_⟩
        intro h
        cases h

theorem managedSpansInside {w : Width} {P : Nat} (hP : P.isPowerOfTwo) (hPw : P < 2 ^ w.bits)
    {span : Nat → Nat → Nat → Except MmapIoError (Option (Nat × Nat))}
    (hs : ∀ total o n, span total o n = if n = 0 then .ok none else (pageSpan w P total o n).map some) :
    ManagedSpansInside w span P := by
  intro total htotal o n
  rw [hs, pageSpan_eq htotal]
  refine ⟨fun h0 => if_pos h0, fun h0 hout => ?_, fun h0 hin => ?_⟩
  · rw [if_neg h0, if_neg (Nat.not_le.2 hout)]
    rfl
  · obtain ⟨hdvd, hle, hlt⟩ := round_down o (Nat.pos_of_isPowerOfTwo hP)
    refine ⟨_, _, by rw [if_neg h0, if_pos hin]; rfl, ?_, hdvd, hle, hlt, by omega, by omega, by omega⟩
    rw [flushSpan_eq (by omega) hP hPw, if_neg (by omega), if_neg (by omega), if_neg h0, Nat.zero_add]

/-- **Raw window geometry**, on both pointer widths: what `map_impl` accepts, where the mapping then lies, and what a
flush, an advise or a lock of any part of it hands to the OS. -/
theorem window_geometry (w : Width) (fileLen offset : Nat) (len : Option Nat) (G P : Nat) (hG : G.isPowerOfTwo)
    (hGw : G < 2 ^ w.bits) (hP : P.isPowerOfTwo) (hPG : P ∣ G) :
    ((∃ l, mapImplLayout w fileLen offset len G = .ok l) ↔
      offset ≤ fileLen ∧ len.getD (fileLen - offset) ≤ fileLen - offset ∧
        offset % G + len.getD (fileLen - offset) ≤ w.maxLen) ∧
    (∀ l, mapImplLayout w fileLen offset len G = .ok l →
      l.len = len.getD (fileLen - offset) ∧ G ∣ l.alignedOffset ∧ l.delta < G ∧ l.alignedOffset + l.delta = offset ∧
      l.mapLen = l.delta + l.len ∧ l.alignedOffset + l.mapLen = offset + l.len ∧ offset + l.len ≤ fileLen ∧
      (∀ file : List UInt8, file.length = fileLen →
        l.window file = (file.drop offset).take l.len ∧ ∀ k, k < l.len → (l.window file)[k]? = file[offset + k]?) ∧
      FlushesInside w l P) ∧
    ManagedSpansInside w (adviseMapped w P) P ∧ ManagedSpansInside w (lockRange w P) P := by
  have hGpos := Nat.pos_of_isPowerOfTwo hG
  have hPw : P < 2 ^ w.bits := Nat.lt_of_le_of_lt (Nat.le_of_dvd hGpos hPG) hGw
  refine ⟨⟨fun ⟨l, hl⟩ => ((mapImplLayout_eq hG hGw l).1 hl).1, fun h => ⟨_, (mapImplLayout_eq hG hGw _).2 ⟨h, rfl⟩⟩⟩,
    ?_, managedSpansInside hP hPw (fun _ _ _ => rfl), managedSpansInside hP hPw (fun _ _ _ => rfl)⟩
  intro l hl
  obtain ⟨⟨hoff, hav, hmax⟩, rfl⟩ := (mapImplLayout_eq hG hGw l).1 hl
  obtain ⟨hdvd, hle, -⟩ := round_down offset hGpos
  have hsum : offset - offset % G + offset % G = offset := Nat.sub_add_cancel (Nat.mod_le _ _)
  refine ⟨rfl, hdvd, Nat.mod_lt _ hGpos, hsum, rfl, ?_, ?_, ?_, flushesInside rfl hmax hP hPw⟩
  · show offset - offset % G + (offset % G + len.getD (fileLen - offset)) = offset + len.getD (fileLen - offset)
    omega
  · show offset + len.getD (fileLen - offset) ≤ fileLen
    omega
  · intro file _
    have hwin := Layout.window_eq (l := ⟨offset - offset % G, offset % G, len.getD (fileLen - offset),
      offset % G + len.getD (fileLen - offset)⟩) file hsum rfl
    refine ⟨hwin, fun k hk => ?_⟩
    rw [hwin, List.getElem?_take_of_lt hk, List.getElem?_drop]

/-- A 10-byte window at offset 70000 of a 100000-byte file, with 64 KiB granularity and 4 KiB pages. -/
theorem window_geometry_64k :
    mapImplLayout .w64 100000 70000 (some 10) 65536 = .ok ⟨65536, 4464, 10, 4474⟩ ∧
    FlushesInside .w64 ⟨65536, 4464, 10, 4474⟩ 4096 :=
  have hl : mapImplLayout .w64 100000 70000 (some 10) 65536 = .ok ⟨65536, 4464, 10, 4474⟩ := by decide
  ⟨hl, ((window_geometry .w64 100000 70000 (some 10) 65536 4096 ⟨16, rfl⟩ (by decide) ⟨12, rfl⟩ ⟨16, rfl⟩).2.1
    _ hl).2.2.2.2.2.2.2.2⟩

end MmapIo
