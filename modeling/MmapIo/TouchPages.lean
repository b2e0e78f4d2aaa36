import MmapIo.CopyOut
import MmapIo.Lib.Round
/-!
# TouchPages — the two page walks, with their arithmetic

`touch_pages` and `touch_pages_range` walk the pages of a range in one of two loops: `touch_range_with_ptr` on a read-only
mapping, `ViewRegistry::touch` on a locked one.  Both are modelled with `usize` arithmetic, `none` where an addition
overflows.  Each is shown to read at the offsets of `touchOffsets`, which start on a page boundary and so fall one in each
page (`touchOffsets_pages`); `page_touch_exact` is the result for both public calls.
-/
namespace MmapIo
namespace TouchPages

open CopyOut Word

/-- `MapRead`: a read-only mapping, or a locked one with its live atomic views. -/
inductive MapRead where
  | shared (len : Nat)
  | guarded (len : Nat) (entries : List AtomicEntry)
  deriving DecidableEq, Repr

def MapRead.len : MapRead → Nat
  | .shared len => len
  | .guarded len _ => len

theorem advance_lt {bits stop off page off' : Nat} (hpage : 0 < page) (hlt : off < stop)
    (h : checkedAdd bits off page = some off') : stop - off' < stop - off := by
  have := (checkedAdd_eq_some.1 h).1
  omega

/-- The loop of `touch_range_with_ptr`: one volatile byte a page. -/
def ptrLoop (w : Width) (page : Nat) (hpage : 0 < page) (stop off : Nat) : Option (List Access) :=
  if _hlt : off < stop then
    match _h : checkedAdd w.bits off page with
    | some off' => (ptrLoop w page hpage stop off').map (fun reads => .plain off 1 :: reads)
    | none => none
  else some []
termination_by stop - off
decreasing_by exact advance_lt hpage _hlt _h

/-- `touch_range_with_ptr`. -/
def touchRangeWithPtr (w : Width) (start walkLen page : Nat) : Option (List Access) :=
  if h : walkLen = 0 ∨ page = 0 then some [] else
  (checkedAdd w.bits start walkLen).bind (fun stop => ptrLoop w page (page_pos h) stop start)

/-- The loop of `ViewRegistry::touch`: inside a live atomic view one aligned element, else one volatile byte. -/
def registryLoop (w : Width) (entries : List AtomicEntry) (page : Nat) (hpage : 0 < page) (stop off : Nat) :
    Option (List Access) :=
  if _hlt : off < stop then
    match _h : checkedAdd w.bits off page with
    | some off' => (registryLoop w entries page hpage stop off').map (fun reads => touchRead entries off :: reads)
    | none => none
  else some []
termination_by stop - off
decreasing_by exact advance_lt hpage _hlt _h

/-- `ViewRegistry::touch`. -/
def registryTouch (w : Width) (entries : List AtomicEntry) (start len page : Nat) : Option (List Access) :=
  if h : len = 0 ∨ page = 0 then some [] else
  (checkedAdd w.bits start len).bind (fun stop => registryLoop w entries page (page_pos h) stop start)

/-- `touch_locked`. -/
def touchLocked (w : Width) (map : MapRead) (start len page : Nat) : Option (List Access) :=
  match map with
  | .shared _ => touchRangeWithPtr w start len page
  | .guarded _ entries => registryTouch w entries start len page

/-- `touch_pages`. -/
def touchPages (w : Width) (page : Nat) (map : MapRead) : Option (List Access) := touchLocked w map 0 map.len page

/-- `touch_pages_range`. -/
def touchPagesRange (w : Width) (page : Nat) (map : MapRead) (offset len : Nat) :
    Except MmapIoError (Option (List Access)) :=
  if len = 0 then .ok (some []) else do
  let (start, stop) ← sliceRange w offset len map.len
  let firstPage := start - start % page
  .ok (touchLocked w map firstPage (stop - firstPage) page)

/-! ## The offsets of a walk -/

theorem lt_ceilDiv {stop page k : Nat} (hpage : 0 < page) : k < stop ⌈/⌉ page ↔ page * k < stop := by
  rw [← Nat.not_le, ceilDiv_le_iff_le_mul hpage, Nat.not_le]

/-- **A walk that starts on a page boundary visits the pages up to its end in order, each once.** -/
theorem touchOffsets_pages {page : Nat} (hpage : 0 < page) (stop off : Nat) (hd : page ∣ off) :
    (touchOffsets page hpage stop off).map (· / page) = List.range' (off / page) (stop ⌈/⌉ page - off / page) := by
  fun_induction touchOffsets page hpage stop off with
  | case1 off hlt ih =>
    have hlast : off / page < stop ⌈/⌉ page := (lt_ceilDiv hpage).2 (by rwa [Nat.mul_div_cancel' hd])
    have hnext : (off + page) / page = off / page + 1 := Nat.add_div_right off hpage
    rw [List.map_cons, ih (Nat.dvd_add hd (Nat.dvd_refl page)), hnext,
      show stop ⌈/⌉ page - off / page = stop ⌈/⌉ page - (off / page + 1) + 1 by omega, List.range'_succ]
  | case2 off hge =>
    have hend : stop ⌈/⌉ page ≤ off / page :=
      (ceilDiv_le_iff_le_mul hpage).2 (by rw [Nat.mul_div_cancel' hd]; omega)
    rw [Nat.sub_eq_zero_of_le hend]
    rfl

/-- Every offset of such a walk is a page boundary. -/
theorem touchOffsets_dvd {page : Nat} (hpage : 0 < page) {stop off x : Nat} (hd : page ∣ off)
    (hx : x ∈ touchOffsets page hpage stop off) : page ∣ x := by
  fun_induction touchOffsets page hpage stop off with
  | case1 off hlt ih =>
    rcases List.mem_cons.1 hx with rfl | hx
    · exact hd
    · exact ih (Nat.dvd_add hd (Nat.dvd_refl page)) hx
  | case2 off hge => cases hx

/-- A power of two in a `usize` and an offset below `isize::MAX` add up to a `usize`. -/
theorem advance_fits {w : Width} {page stop off : Nat} (hpow : page.isPowerOfTwo) (hpw : page < 2 ^ w.bits)
    (hstop : stop ≤ w.maxLen) (hlt : off < stop) : checkedAdd w.bits off page = some (off + page) := by
  apply checkedAdd_of_lt
  obtain ⟨k, rfl⟩ := hpow
  have hk : k ≤ w.bits - 1 := by
    have := (Nat.pow_lt_pow_iff_right (by decide)).1 hpw
    omega
  have hpage : 2 ^ k ≤ 2 ^ (w.bits - 1) := Nat.pow_le_pow_right (by decide) hk
  have hhalf : 2 ^ w.bits = 2 ^ (w.bits - 1) + 2 ^ (w.bits - 1) := by cases w <;> decide
  unfold Width.maxLen at hstop
  omega

section Loops

variable {w : Width} {page : Nat} (hpow : page.isPowerOfTwo) (hpw : page < 2 ^ w.bits) {stop : Nat} (hstop : stop ≤ w.maxLen)

include hpow hpw hstop

/-- **The loop of `touch_range_with_ptr` reads a byte at each offset of the walk** and never overflows. -/
theorem ptrLoop_eq (hpage : 0 < page) (off : Nat) :
    ptrLoop w page hpage stop off = some ((touchOffsets page hpage stop off).map (fun off => .plain off 1)) := by
  fun_induction touchOffsets page hpage stop off with
  | case1 off hlt ih =>
    rw [ptrLoop, dif_pos hlt]
    split
    · rename_i off' h
      rw [advance_fits hpow hpw hstop hlt] at h
      cases h
      rw [ih]
      rfl
    · rename_i h
      rw [advance_fits hpow hpw hstop hlt] at h
      cases h
  | case2 off hge =>
    rw [ptrLoop, dif_neg hge]
    rfl

/-- **The loop of `ViewRegistry::touch` reads at each offset of the walk** and never overflows. -/
theorem registryLoop_eq (entries : List AtomicEntry) (hpage : 0 < page) (off : Nat) :
    registryLoop w entries page hpage stop off = some ((touchOffsets page hpage stop off).map (touchRead entries)) := by
  fun_induction touchOffsets page hpage stop off with
  | case1 off hlt ih =>
    rw [registryLoop, dif_pos hlt]
    split
    · rename_i off' h
      rw [advance_fits hpow hpw hstop hlt] at h
      cases h
      rw [ih]
      rfl
    · rename_i h
      rw [advance_fits hpow hpw hstop hlt] at h
      cases h
  | case2 off hge =>
    rw [registryLoop, dif_neg hge]
    rfl

end Loops

/-! ## The reads of a walk -/

/-- The bytes `[off, off + len)` a read touches. -/
def off : Access → Nat
  | .plain off _ => off
  | .atomic elem _ => elem

def len : Access → Nat
  | .plain _ len => len
  | .atomic _ size => size

/-- **The reads cover the pages of `[lo, hi)` exactly**: each lies in the mapping and in one page, there is one in every
page that holds a byte of the range and none in any other, and the pages ascend. -/
structure Exact (page n lo hi : Nat) (reads : List Access) : Prop where
  inside : ∀ a ∈ reads, 0 < len a ∧ off a + len a ≤ n
  onePage : ∀ a ∈ reads, ∀ x, off a ≤ x → x < off a + len a → x / page = off a / page
  hit : ∀ k, (∃ x, lo ≤ x ∧ x < hi ∧ x / page = k) → reads.countP (fun a => decide (off a / page = k)) = 1
  miss : ∀ k, (¬ ∃ x, lo ≤ x ∧ x < hi ∧ x / page = k) → reads.countP (fun a => decide (off a / page = k)) = 0
  ascending : (reads.map (fun a => off a / page)).Pairwise (· < ·)

theorem exact_empty (page n : Nat) : Exact page n 0 0 [] where
  inside a ha := by cases ha
  onePage a ha := by cases ha
  hit k hk := by
    obtain ⟨x, -, hx, -⟩ := hk
    cases hx
  miss k _ := rfl
  ascending := List.Pairwise.nil

/-- A page from the one of `lo` on holds a byte of `[lo, hi)` exactly when it starts before `hi`. -/
theorem page_meets {page lo hi : Nat} (hpage : 0 < page) (k : Nat) :
    (∃ x, lo ≤ x ∧ x < hi ∧ x / page = k) ↔ lo / page ≤ k ∧ lo < hi ∧ k < hi ⌈/⌉ page := by
  rw [lt_ceilDiv hpage]
  constructor
  · rintro ⟨x, hlo, hhi, rfl⟩
    have := Nat.mul_div_le x page
    exact ⟨Nat.div_le_div_right hlo, by omega, by omega⟩
  · rintro ⟨hk, hne, hlt⟩
    rcases Nat.lt_or_eq_of_le hk with hk | rfl
    · refine ⟨page * k, ?_, hlt, Nat.mul_div_cancel_left k hpage⟩
      have hnext : lo < page * (lo / page + 1) := by
        rw [Nat.mul_comm]
        exact Nat.lt_mul_of_div_lt (Nat.lt_succ_self _) hpage
      exact Nat.le_trans (Nat.le_of_lt hnext) (Nat.mul_le_mul_left page hk)
    · exact ⟨lo, Nat.le_refl lo, hne, rfl⟩

theorem countP_page (page k : Nat) (reads : List Access) :
    reads.countP (fun a => decide (off a / page = k)) = (reads.map (fun a => off a / page)).count k := by
  rw [List.count, List.countP_map]
  rfl

/-- The pages of a walk from the page of `lo` to `hi`, when each read stays at its offset. -/
theorem walk_pages {page lo hi : Nat} (hpage : 0 < page) {read : Nat → Access}
    (hread : ∀ x ∈ touchOffsets page hpage hi (lo - lo % page), off (read x) = x) :
    ((touchOffsets page hpage hi (lo - lo % page)).map read).map (fun a => off a / page) =
      List.range' (lo / page) (hi ⌈/⌉ page - lo / page) := by
  have hfirst : (lo - lo % page) / page = lo / page := by
    rw [← Nat.div_mul_self_eq_mod_sub_self, Nat.mul_div_cancel _ hpage]
  rw [List.map_map, ← hfirst, ← touchOffsets_pages hpage hi _ (Nat.dvd_sub_mod lo)]
  apply List.map_congr_left
  intro x hx
  simp only [Function.comp_apply, hread x hx]

/-- **A walk of reads, each at its own offset and of an aligned size of at most 8 bytes, covers the pages exactly.** -/
theorem exact_of_walk {page n lo hi : Nat} (hpage : 0 < page) (hlt : lo < hi) {read : Nat → Access}
    (hread : ∀ x ∈ touchOffsets page hpage hi (lo - lo % page), off (read x) = x ∧
      0 < len (read x) ∧ len (read x) ≤ page ∧ x + len (read x) ≤ n) :
    Exact page n lo hi ((touchOffsets page hpage hi (lo - lo % page)).map read) := by
  have hpages := walk_pages hpage (fun x hx => (hread x hx).1)
  refine ⟨?_, ?_, fun k hk => ?_, fun k hk => ?_, ?_⟩
  · intro a ha
    obtain ⟨x, hx, rfl⟩ := List.mem_map.1 ha
    obtain ⟨hoff, hpos, -, hin⟩ := hread x hx
    exact ⟨hpos, by rwa [hoff]⟩
  · intro a ha y hy hy'
    obtain ⟨x, hx, rfl⟩ := List.mem_map.1 ha
    obtain ⟨hoff, -, hle, -⟩ := hread x hx
    obtain ⟨q, rfl⟩ := touchOffsets_dvd hpage (Nat.dvd_sub_mod lo) hx
    rw [hoff] at hy hy' ⊢
    rw [Nat.mul_div_cancel_left q hpage]
    refine Nat.div_eq_of_lt_le ?_ ?_
    · rw [Nat.mul_comm]
      exact hy
    · rw [Nat.add_mul, Nat.mul_comm q]
      omega
  · obtain ⟨hlo, -, hhi⟩ := (page_meets hpage k).1 hk
    rw [countP_page, hpages]
    exact List.count_eq_one_of_mem (List.nodup_range') (List.mem_range'_1.2 ⟨hlo, by omega⟩)
  · rw [countP_page, hpages]
    refine List.count_eq_zero_of_not_mem (fun hmem => hk ((page_meets hpage k).2 ?_))
    obtain ⟨h1, h2⟩ := List.mem_range'_1.1 hmem
    exact ⟨h1, hlt, by omega⟩
  · rw [hpages]
    exact List.pairwise_lt_range'

/-! ## The two calls -/

/-- The read each loop makes at an offset. -/
def readAt : MapRead → Nat → Access
  | .shared _, x => .plain x 1
  | .guarded _ entries, x => touchRead entries x

/-- What the registry holds for the mapping. -/
def EntriesFit : MapRead → Prop
  | .shared _ => True
  | .guarded len entries => EntriesOk len entries

/-- **At a page boundary of the mapping the read stays at its offset**: an element of 4 or 8 bytes divides the page. -/
theorem readAt_boundary {page : Nat} (hpow : page.isPowerOfTwo) (h8 : 8 ≤ page) {map : MapRead} (hok : EntriesFit map)
    {x : Nat} (hd : page ∣ x) (hx : x < map.len) :
    off (readAt map x) = x ∧ 0 < len (readAt map x) ∧ len (readAt map x) ≤ page ∧ x + len (readAt map x) ≤ map.len := by
  cases map with
  | shared n =>
    simp only [readAt, off, len]
    simp only [MapRead.len] at hx ⊢
    exact ⟨trivial, by omega, by omega, hx⟩
  | guarded n entries =>
    have hlaw := touchRead_lawful hok hx
    simp only [readAt, touchRead] at hlaw ⊢
    cases hf : entries.find? (fun a => decide (a.range.start ≤ x ∧ x < a.range.stop)) with
    | none =>
      simp only [off, len, MapRead.len] at hx ⊢
      exact ⟨trivial, by omega, by omega, hx⟩
    | some e =>
      have he := List.mem_of_find?_eq_some hf
      have hwidth := hok.loadWidth he
      have hsize : e.size ∣ 8 := by
        rcases hok.size e he with h | h
        · exact ⟨2, by rw [h]⟩
        · exact ⟨1, by rw [h]⟩
      have h8page : 8 ∣ page := by
        obtain ⟨k, rfl⟩ := hpow
        exact Nat.pow_dvd_pow 2 ((Nat.pow_le_pow_iff_right (by decide)).1 (show 2 ^ 3 ≤ 2 ^ k from h8))
      have hmod : x % e.size = 0 := Nat.mod_eq_zero_of_dvd ((hsize.trans h8page).trans hd)
      have hle := Nat.le_of_dvd (by decide) hsize
      rw [hf] at hlaw
      simp only [hwidth, hmod, Nat.sub_zero, off, len] at hlaw ⊢
      exact ⟨trivial, hok.size_pos he, by omega, hlaw.1⟩

section Calls

variable {w : Width} {page : Nat} (hpow : page.isPowerOfTwo) (hpw : page < 2 ^ w.bits)

include hpow hpw

/-- **Both loops read along the walk.** -/
theorem touchLocked_eq (map : MapRead) {lo hi : Nat} (hpage : 0 < page) (hlt : lo < hi) (hhi : hi ≤ w.maxLen) :
    touchLocked w map lo (hi - lo) page = some ((touchOffsets page hpage hi lo).map (readAt map)) := by
  have hguard : ¬ (hi - lo = 0 ∨ page = 0) := by omega
  have hmax := w.maxLen_lt
  have hstop : checkedAdd w.bits lo (hi - lo) = some hi := checkedAdd_eq_some.2 ⟨by omega, by omega⟩
  cases map with
  | shared n =>
    rw [touchLocked, touchRangeWithPtr, dif_neg hguard, hstop]
    exact ptrLoop_eq hpow hpw hhi hpage lo
  | guarded n entries =>
    rw [touchLocked, registryTouch, dif_neg hguard, hstop]
    exact registryLoop_eq hpow hpw hhi entries hpage lo

/-- **A walk from the page of `lo` to `hi`**: it returns, covers the pages of `[lo, hi)` exactly, and its pages are those
between the two ends whichever loop makes it. -/
theorem walk_exact (h8 : 8 ≤ page) {map : MapRead} (hok : EntriesFit map) {lo hi : Nat} (hlt : lo < hi)
    (hhi : hi ≤ map.len) (hmap : map.len ≤ w.maxLen) :
    ∃ reads, touchLocked w map (lo - lo % page) (hi - (lo - lo % page)) page = some reads ∧
      Exact page map.len lo hi reads ∧
      reads.map (fun a => off a / page) = List.range' (lo / page) (hi ⌈/⌉ page - lo / page) := by
  have hpage : 0 < page := by omega
  have hread : ∀ x ∈ touchOffsets page hpage hi (lo - lo % page), off (readAt map x) = x ∧ 0 < len (readAt map x) ∧
      len (readAt map x) ≤ page ∧ x + len (readAt map x) ≤ map.len := by
    intro x hx
    have hbound := mem_touchOffsets hx
    exact readAt_boundary hpow h8 hok (touchOffsets_dvd hpage (Nat.dvd_sub_mod lo) hx) (by omega)
  refine ⟨_, touchLocked_eq hpow hpw map hpage (by omega) (by omega), exact_of_walk hpage hlt hread, ?_⟩
  exact walk_pages hpage (fun x hx => (hread x hx).1)

end Calls

/-- **Page touching covers the range exactly.**  For every mapping of up to `isize::MAX` bytes, every page size that is a
power of two of at least 8 and every set of live atomic views: `touch_pages_range` of a non-empty range inside the mapping,
and `touch_pages`, return without overflow, read inside the mapping, once in each page that holds a byte of the range and
in no other; the read-only and the locked walk read in the same pages in the same order. -/
theorem page_touch_exact {w : Width} {page : Nat} (hpow : page.isPowerOfTwo) (h8 : 8 ≤ page) (hpw : page < 2 ^ w.bits)
    {n : Nat} (hn : n ≤ w.maxLen) {entries : List AtomicEntry} (hok : EntriesOk n entries) :
    (∀ offset len, 0 < len →
      (offset + len ≤ n → ∃ ro locked,
        touchPagesRange w page (.shared n) offset len = .ok (some ro) ∧
        touchPagesRange w page (.guarded n entries) offset len = .ok (some locked) ∧
        Exact page n offset (offset + len) ro ∧ Exact page n offset (offset + len) locked ∧
        ro.map (fun a => off a / page) = locked.map (fun a => off a / page)) ∧
      (n < offset + len →
        touchPagesRange w page (.shared n) offset len = .error (.outOfBounds offset len n) ∧
        touchPagesRange w page (.guarded n entries) offset len = .error (.outOfBounds offset len n))) ∧
    ∃ ro locked, touchPages w page (.shared n) = some ro ∧ touchPages w page (.guarded n entries) = some locked ∧
      Exact page n 0 n ro ∧ Exact page n 0 n locked ∧
      ro.map (fun a => off a / page) = locked.map (fun a => off a / page) := by
  have hlen : ∀ {len : Nat}, 0 < len → ¬ len = 0 := fun h => by omega
  refine ⟨fun offset len hpos => ⟨fun hfit => ?_, fun hover => ?_⟩, ?_⟩
  · obtain ⟨ro, hro, hexact, hpages⟩ := walk_exact hpow hpw h8 (show EntriesFit (.shared n) from trivial)
      (show offset < offset + len by omega) hfit hn
    obtain ⟨locked, hlocked, hexact', hpages'⟩ := walk_exact hpow hpw h8
      (show EntriesFit (.guarded n entries) from hok)
      (show offset < offset + len by omega) hfit hn
    refine ⟨ro, locked, ?_, ?_, hexact, hexact', by rw [hpages, hpages']⟩
    · rw [touchPagesRange, if_neg (hlen hpos), MapRead.len, sliceRange_eq hn, if_pos hfit]
      exact congrArg Except.ok hro
    · rw [touchPagesRange, if_neg (hlen hpos), MapRead.len, sliceRange_eq hn, if_pos hfit]
      exact congrArg Except.ok hlocked
  · constructor
    · rw [touchPagesRange, if_neg (hlen hpos), MapRead.len, sliceRange_eq hn, if_neg (by omega)]
      rfl
    · rw [touchPagesRange, if_neg (hlen hpos), MapRead.len, sliceRange_eq hn, if_neg (by omega)]
      rfl
  · rcases Nat.eq_zero_or_pos n with rfl | hpos
    · refine ⟨[], [], rfl, rfl, exact_empty page 0, exact_empty page 0, rfl⟩
    · obtain ⟨ro, hro, hexact, hpages⟩ := walk_exact hpow hpw h8 (show EntriesFit (.shared n) from trivial) hpos (Nat.le_refl n) hn
      obtain ⟨locked, hlocked, hexact', hpages'⟩ := walk_exact hpow hpw h8
        (show EntriesFit (.guarded n entries) from hok) hpos (Nat.le_refl n) hn
      rw [Nat.zero_mod] at hro hlocked
      exact ⟨ro, locked, hro, hlocked, hexact, hexact', by rw [hpages, hpages']⟩

/-- One 8-byte view at the start of the second page. -/
theorem secondPage_ok : EntriesOk 10000 [⟨⟨4096, 4104⟩, 8, 0⟩] where
  size := by decide
  start := by decide
  stop := by decide
  inside := by decide
  apart e he e' he' x _ _ := by
    simp only [List.mem_singleton] at he he'
    rw [he, he']

/-- A range that ends in the third page of a mapping of 10000 bytes, with a view over the second page boundary. -/
theorem page_touch_exact_third :
    ∃ ro locked, touchPagesRange .w64 4096 (.shared 10000) 5000 4000 = .ok (some ro) ∧
      touchPagesRange .w64 4096 (.guarded 10000 [⟨⟨4096, 4104⟩, 8, 0⟩]) 5000 4000 = .ok (some locked) ∧
      ro.map (fun a => off a / 4096) = locked.map (fun a => off a / 4096) := by
  obtain ⟨ro, locked, hro, hlocked, -, -, hsame⟩ :=
    ((page_touch_exact (show Nat.isPowerOfTwo 4096 from ⟨12, rfl⟩) (by decide) (show 4096 < 2 ^ Width.w64.bits by decide)
      (by decide) secondPage_ok).1 5000 4000 (by decide)).1 (by decide)
  exact ⟨ro, locked, hro, hlocked, hsame⟩

/-! ## The mapping's own call -/

/-- `map_read` of a mapping. -/
def mapRead (s : Inner) : MapRead :=
  match s.map with
  | .ro len => .shared len
  | .rw len => .guarded len s.atomics
  | .cow bytes => .guarded bytes.length s.atomics

theorem touchLocked_inner (s : Inner) (start count page : Nat) (hpage : 0 < page) (hcount : 0 < count) :
    (MmapIo.touchLocked s start count page).map touchAccess =
      (touchOffsets page hpage (start + count) start).map (readAt (mapRead s)) := by
  have hguard : ¬ (count = 0 ∨ page = 0) := by omega
  unfold MmapIo.touchLocked mapRead
  rw [dif_neg hguard]
  cases hmap : s.map with
  | ro n =>
    rw [List.map_map]
    rfl
  | rw n =>
    rw [List.map_map]
    apply List.map_congr_left
    intro off _
    simp only [Function.comp_apply, readAt, touchRead]
    cases s.atomics.find? (fun a => decide (a.range.start ≤ off ∧ off < a.range.stop)) <;> rfl
  | cow bytes =>
    rw [List.map_map]
    apply List.map_congr_left
    intro off _
    simp only [Function.comp_apply, readAt, touchRead]
    cases s.atomics.find? (fun a => decide (a.range.start ≤ off ∧ off < a.range.stop)) <;> rfl

/-- **The walk without its arithmetic is the walk with it**: on a mapping of at most `isize::MAX` bytes the list of reads
of `touch_pages_range` is what the loops return. -/
theorem touchPagesRange_inner (P : Platform) {s : Inner} (hs : s.mapLen ≤ P.width.maxLen) (offset len : Nat) :
    touchPagesRange P.width P.page (mapRead s) offset len =
      (MmapIo.touchPagesRange P offset len s).map (fun reads => some (reads.map touchAccess)) := by
  have hlen : (mapRead s).len = s.mapLen := by
    unfold mapRead Inner.mapLen
    cases s.map <;> rfl
  have hpage : 0 < P.page := Nat.pos_of_isPowerOfTwo P.page_pow
  unfold touchPagesRange MmapIo.touchPagesRange
  by_cases h0 : len = 0
  · rw [if_pos h0, if_pos h0]
    rfl
  · rw [if_neg h0, if_neg h0, hlen, sliceRange_eq hs]
    by_cases hfit : offset + len ≤ s.mapLen
    · have hfirst : offset - offset % P.page ≤ offset := Nat.sub_le _ _
      have hend : offset - offset % P.page + (offset + len - (offset - offset % P.page)) = offset + len := by omega
      rw [if_pos hfit]
      simp only [bind, Except.bind, Except.map]
      rw [touchLocked_inner s _ _ P.page hpage (by omega), hend,
        touchLocked_eq P.page_pow P.page_lt (mapRead s) hpage (by omega) (by omega)]
    · rw [if_neg hfit]
      rfl

end TouchPages
end MmapIo
