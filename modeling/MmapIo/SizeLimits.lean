import MmapIo.ConstructUndo
import MmapIo.ResizeRuns
/-!
# SizeLimits — sizes that are refused, and when

A requested size is checked by the managed layer (`MAX_MMAP_SIZE`) before the file is opened or sized, and by the raw layer
(`MAX_LEN`) when it is mapped.  On a 32-bit target the first limit, 2 GiB, is one byte above the second: that one size is
refused only after the file was truncated or extended.  `size_rejection` says so for the creating constructors, `resize`
and `AnonymousMmap::new` with every OS call succeeding.
-/
namespace MmapIo
namespace Construct

open Word Bytes Machine

/-! ## Anonymous mappings -/

/-- `validated_len` (`anonymous.rs`). -/
def validatedLen (w : Width) (size : Nat) : Except MmapIoError Nat :=
  if size = 0 then .error (.resizeFailed errZeroSize)
  else if size > w.maxMmapSize then
    .error (.resizeFailed s!"Size {size} exceeds maximum safe limit of {w.maxMmapSize} bytes")
  else
    match tryFrom w.bits size with
    | none => .error (.resizeFailed s!"Size {size} does not fit in usize")
    | some len => .ok len

/-- `RawMmapMut::map_anon` (through `RawMmapOptions::map_anon`): the length of the mapping. -/
def mapAnon (P : Platform) (os : Os) (len : Nat) : Except IoError Nat :=
  match layout P.width 0 len P.granularity P.width.maxLen with
  | .error e => .error (.invalidInput e)
  | .ok l =>
    if l.len = 0 then .ok 0 else
    match os.map with
    | some text => .error (.os text)
    | none => .ok l.len

/-- `AnonymousMmap::new`: the length of the mapping. -/
def anonymousNew (P : Platform) (os : Os) (size : Nat) : Except MmapIoError Nat :=
  match validatedLen P.width size with
  | .error e => .error e
  | .ok len =>
    match mapAnon P os len with
    | .error e => .error (.io e)
    | .ok _ => .ok size

def AnonRefuses (P : Platform) (size : Nat) : Prop := ∀ len, anonymousNew P Os.ok size ≠ .ok len

variable {P : Platform} {c : Ctor} {w w' : World} {path : Option (List UInt8)}

/-- **What an anonymous mapping is refused for**: 0, and either limit. -/
theorem anonRefuses (size : Nat) (h : size = 0 ∨ P.width.maxMmapSize < size ∨ P.width.maxLen < size) : AnonRefuses P size := by
  intro len hnew
  unfold anonymousNew validatedLen at hnew
  split at hnew
  · cases hnew
  · rename_i n hn
    split at hn
    · cases hn
    · split at hn
      · cases hn
      · rename_i h0 hmax
        rw [tryFrom_of_lt (maxMmapSize_lt P (Nat.not_lt.1 hmax))] at hn
        cases hn
        -- both limits of the managed layer are passed, so it is the raw one
        have hraw : P.width.maxLen < size := by omega
        cases hl : layout P.width 0 size P.granularity P.width.maxLen with
        | ok l =>
          have := ((layout_eq P.gran_pow P.gran_lt P.width.maxLen_lt l).1 hl).1
          omega
        | error e =>
          rw [mapAnon, hl] at hnew
          cases hnew

/-- **The only size between the two limits** is 2 GiB on a 32-bit target. -/
theorem between_limits (w : Width) (size : Nat) :
    w.maxLen < size ∧ size ≤ w.maxMmapSize ↔ w = .w32 ∧ size = 2 ^ 31 := by
  cases w with
  | w32 =>
    simp only [Width.maxLen, Width.bits, Width.maxMmapSize, true_and]
    omega
  | w64 =>
    simp only [Width.maxLen, Width.bits, Width.maxMmapSize, reduceCtorEq, false_and, iff_false]
    omega

/-! ## The constructors -/

/-- Not an error of the OS. -/
def ForSize : MmapIoError → Prop
  | .io (.os _) => False
  | _ => True

/-- The constructor comes to give the file its size: `create_new` of a missing path, `open_or_create` of a missing or empty
file, the others always. -/
def Ctor.sizes (c : Ctor) (path : Option (List UInt8)) : Bool :=
  match c with
  | .build _ .createNew => path.isNone
  | .build _ .openOrCreate => (path.getD []).isEmpty
  | _ => true

/-- The size that decides: the one asked for, or that of a file `open_or_create` finds with data. -/
def Ctor.decisive (c : Ctor) (path : Option (List UInt8)) (size : Nat) : Nat :=
  if c.opensOrCreates = true ∧ path.getD [] ≠ [] then (path.getD []).length else size

/-- **A constructor that is refused for the size changed nothing on the way**, with every OS call succeeding; and an
anonymous mapping of that size is refused too. -/
def Spotless (P : Platform) (c : Ctor) (path : Option (List UInt8)) (size : Nat) : Prop :=
  ∀ n w e, run (alone P c) (start P c path) (List.replicate n Os.ok) = some w → w.phase = .done (.error e) → ForSize e →
    (∀ k v, k ≤ n → run (alone P c) (start P c path) (List.replicate k Os.ok) = some v → v.path = path) ∧
    AnonRefuses P (c.decisive path size)

/-- The file is this call's to size, at a length the raw layer takes: no failure for the size any more. -/
def Bound (P : Platform) (c : Ctor) (w : World) : Prop :=
  match w.phase with
  | .sizing n => w.path = some [] ∧ n ≤ P.width.maxLen
  | .mapQuery len request => w.file.length = len ∧ len ≤ P.width.maxLen ∧ request = if c.whole then none else some len
  | .mapping _ _ | .done (.ok _) => True
  | .done (.error e) => ¬ ForSize e
  | _ => False

/-- What is known while nothing has been done to the path. -/
def Waits (P : Platform) (c : Ctor) (path : Option (List UInt8)) (size : Nat) (w : World) : Prop :=
  match w.phase with
  | .truncating n | .exclusive n | .createPass _ n => c.size = some n
  | .mapQuery len request => c.opensOrCreates = true ∧ request = some len ∧ len = (path.getD []).length ∧ len ≠ 0
  | .done (.error e) => ForSize e → AnonRefuses P (c.decisive path size)
  | .sizing _ => False
  | _ => True

theorem bound_sizing {n : Nat} (h : Bound P c w) (hp : w.phase = .sizing n) (hcall : call P c Os.ok w = some w') :
    Bound P c w' := by
  simp only [Bound, hp] at h
  obtain ⟨hpath, hmax⟩ := h
  have hfit : n < 2 ^ P.width.bits := Nat.lt_of_le_of_lt hmax P.width.maxLen_lt
  simp only [call, hp, Os.ok, mapFrom_of_lt hfit, hpath, Option.map_some, Option.some.injEq] at hcall
  subst hcall
  exact ⟨by simp only [World.file, Option.getD_some, length_setLen], hmax, rfl⟩

theorem bound_mapQuery {len : Nat} {request : Option Nat} (h : Bound P c w) (hp : w.phase = .mapQuery len request)
    (hcall : call P c Os.ok w = some w') : Bound P c w' := by
  simp only [Bound, hp] at h
  obtain ⟨hlen, hmax, hreq⟩ := h
  have hget : request.getD (w.file.length - 0) = len := by
    rw [hreq, Nat.sub_zero]
    split
    · exact hlen
    · rfl
  have hl : mapImplLayout P.width w.file.length 0 request P.granularity = .ok _ :=
    (mapImplLayout_eq P.gran_pow P.gran_lt _).2 ⟨⟨Nat.zero_le _, by rw [hget, hlen, Nat.sub_zero],
      by rw [hget, Nat.zero_mod, Nat.zero_add]; exact hmax⟩, rfl⟩
  simp only [call, hp, Os.ok, hl] at hcall
  split at hcall <;> cases hcall <;> trivial

/-- **Once the file is this call's to size, it is not refused for the size.** -/
theorem bound_call (h : Bound P c w) (hcall : call P c Os.ok w = some w') : Bound P c w' := by
  cases hp : w.phase with
  | sizing n => exact bound_sizing h hp hcall
  | mapQuery len request => exact bound_mapQuery h hp hcall
  | mapping len mapLen =>
    simp only [call, hp, Os.ok, Option.some.injEq] at hcall
    subst hcall
    trivial
  | done r =>
    simp only [call, hp] at hcall
    cases hcall
  | _ => simp only [Bound, hp] at h

theorem Untouched.fail (h : Untouched path w) (e : MmapIoError) : Untouched path (w.fail e) := by
  refine ⟨?_, h.undo⟩
  show w.undo.run w.path = path
  rw [h.undo, h.now]
  rfl

theorem validatedCreateSize_error {w : Width} {n : Nat} {e : MmapIoError}
    (h : validatedCreateSize w (some n) = .error e) : n = 0 ∨ w.maxMmapSize < n := by
  simp only [validatedCreateSize, okOr_some, bind, Except.bind] at h
  split at h
  · exact .inl ‹_›
  · split at h
    · exact .inr ‹_›
    · cases h

theorem decisive_of_nil {size : Nat} (h : path.getD [] = []) : c.decisive path size = size :=
  if_neg (fun hc => hc.2 h)

theorem sizes_none (c : Ctor) : c.sizes none = true := by
  cases c with
  | build b t => cases t <;> rfl
  | _ => rfl

theorem sizes_of_not_keepsData (h : c.keepsData = false) : c.sizes path = true := by
  cases c with
  | build b t => cases t <;> first | rfl | cases h
  | _ => rfl

theorem sizes_of_nil (hoc : c.opensOrCreates = true) (h : path.getD [] = []) : c.sizes path = true := by
  cases c with
  | build b t =>
    cases t with
    | openOrCreate => simp only [Ctor.sizes, h, List.isEmpty_nil]
    | _ => cases hoc
  | _ => cases hoc

theorem whole_of_opensOrCreates (h : c.opensOrCreates = true) : c.whole = false := by
  have hmode := mode_of_opensOrCreates h
  cases c with
  | build b t => simp only [Ctor.whole, hmode, reduceCtorEq, decide_false]
  | _ => cases h

section

variable {size : Nat} (hsize : c.size = some size)
  (hlimit : size ≤ P.width.maxMmapSize → c.sizes path = true → size ≤ P.width.maxLen)

include hsize hlimit

/-- The call goes on to size the file. -/
theorem bound_of_sizes {n : Nat} (hn : c.size = some n) (hmax : n ≤ P.width.maxMmapSize) (hs : c.sizes path = true)
    (undo : Undo) : Bound P c ⟨some [], undo, .sizing n⟩ := by
  rw [hsize] at hn
  cases hn
  exact ⟨rfl, hlimit hmax hs⟩

omit hlimit in
/-- The size asked for is refused before anything is done. -/
theorem waits_refused {e : MmapIoError} (hu : Untouched path w) (hnil : path.getD [] = [])
    (h : validatedCreateSize P.width c.size = .error e) :
    Untouched path (w.fail e) ∧ Waits P c path size (w.fail e) := by
  refine ⟨hu.fail e, fun _ => ?_⟩
  rw [hsize] at h
  rw [decisive_of_nil hnil]
  exact anonRefuses size ((validatedCreateSize_error h).elim .inl (fun h => .inr (.inl h)))

/-- **With the length of an existing file known.** -/
theorem waits_gotLen (hoc : c.opensOrCreates = true) (hu : Untouched path w) (hex : path.isSome = true) :
    Bound P c (gotLen P c w.file.length w) ∨
      (Untouched path (gotLen P c w.file.length w) ∧ Waits P c path size (gotLen P c w.file.length w)) := by
  unfold gotLen
  rw [mode_of_opensOrCreates hoc, hu.file_eq]
  by_cases hlen : (path.getD []).length = 0
  · have hnil : path.getD [] = [] := List.eq_nil_of_length_eq_zero hlen
    rw [if_neg (by simp [hlen]), if_pos hoc]
    cases hv : validatedCreateSize P.width c.size with
    | error e => exact .inr (waits_refused hsize hu hnil hv)
    | ok n =>
      obtain ⟨hn, -, hmax⟩ := validatedCreateSize_ok hv
      have hempty : w.path = some [] := by
        obtain ⟨file, rfl⟩ := Option.isSome_iff_exists.1 hex
        rw [hu.now, show file = [] from hnil]
      have hbound := bound_of_sizes hsize hlimit hn hmax (sizes_of_nil hoc hnil) w.undo
      exact .inl ⟨hempty, hbound.2⟩
  · rw [if_pos (Or.inr hlen)]
    have hne : path.getD [] ≠ [] := fun hnil => hlen (by rw [hnil]; rfl)
    unfold mapFrom
    rw [whole_of_opensOrCreates hoc, if_neg Bool.false_ne_true]
    by_cases hfit : (path.getD []).length < 2 ^ P.width.bits
    · rw [tryFrom_of_lt hfit]
      exact .inr ⟨hu.of_eq _, hoc, rfl, rfl, hlen⟩
    · have hbits := P.width.maxLen_lt
      rw [tryFrom_of_ge (Nat.not_lt.1 hfit)]
      refine .inr ⟨hu.fail _, fun _ => ?_⟩
      rw [Ctor.decisive, if_pos ⟨hoc, hne⟩]
      exact anonRefuses _ (.inr (.inr (by omega)))

omit hsize hlimit in
/-- The raw layer looks at a file that was there. -/
theorem waits_mapQuery {len : Nat} {request : Option Nat} (hu : Untouched path w) (hw : Waits P c path size w)
    (hp : w.phase = .mapQuery len request) (hcall : call P c Os.ok w = some w') :
    Bound P c w' ∨ (Untouched path w' ∧ Waits P c path size w') := by
  simp only [Waits, hp] at hw
  obtain ⟨hoc, rfl, rfl, hlen⟩ := hw
  have hne : path.getD [] ≠ [] := fun hnil => hlen (by rw [hnil]; rfl)
  have hfile := hu.file_eq
  simp only [call, hp, Os.ok] at hcall
  cases hl : mapImplLayout P.width w.file.length 0 (some (path.getD []).length) P.granularity with
  | ok l =>
    rw [hl] at hcall
    simp only at hcall
    split at hcall <;> cases hcall <;> exact .inl trivial
  | error e =>
    rw [hl] at hcall
    cases hcall
    refine .inr ⟨hu.fail _, fun _ => ?_⟩
    rw [Ctor.decisive, if_pos ⟨hoc, hne⟩]
    refine anonRefuses _ (.inr (.inr (Nat.not_le.1 fun hle => ?_)))
    have hok : mapImplLayout P.width w.file.length 0 (some (path.getD []).length) P.granularity = .ok _ :=
      (mapImplLayout_eq P.gran_pow P.gran_lt _).2 ⟨⟨Nat.zero_le _, by simp [hfile], by simpa using hle⟩, rfl⟩
    rw [hl] at hok
    cases hok

/-- **While nothing has been done, a call does nothing or makes the file its own.** -/
theorem waits_call (ho : Owns P c path w) (hu : Untouched path w) (hw : Waits P c path size w)
    (hcall : call P c Os.ok w = some w') : Bound P c w' ∨ (Untouched path w' ∧ Waits P c path size w') := by
  cases hp : w.phase with
  | truncating n =>
    simp only [Owns, hp] at ho
    simp only [Waits, hp] at hw
    simp only [call, hp, Os.ok] at hcall
    cases hcall
    exact .inl (bound_of_sizes hsize hlimit hw ho.2.2.2 (sizes_of_not_keepsData ho.2.1) _)
  | exclusive n =>
    simp only [Owns, hp] at ho
    simp only [Waits, hp] at hw
    simp only [call, hp, Os.ok, hu.now] at hcall
    cases path with
    | some file =>
      cases hcall
      exact .inl id
    | none =>
      cases hcall
      exact .inl (bound_of_sizes hsize hlimit hw ho.2.2 (sizes_none c) _)
  | openPass passes =>
    cases passes with
    | zero =>
      simp only [call, hp] at hcall
      cases hcall
      exact .inl id
    | succ passes =>
      simp only [call, hp, Os.ok, hu.now] at hcall
      cases path with
      | some file =>
        cases hcall
        exact .inr ⟨⟨rfl, hu.undo⟩, trivial⟩
      | none =>
        cases hv : validatedCreateSize P.width c.size with
        | error e =>
          simp only [hv] at hcall
          cases hcall
          exact .inr (waits_refused hsize hu rfl hv)
        | ok n =>
          simp only [hv] at hcall
          cases hcall
          exact .inr ⟨⟨rfl, hu.undo⟩, (validatedCreateSize_ok hv).1⟩
  | createPass passes n =>
    simp only [Owns, hp] at ho
    simp only [Waits, hp] at hw
    simp only [call, hp, Os.ok, hu.now] at hcall
    cases path with
    | some file =>
      cases hcall
      exact .inr ⟨⟨rfl, hu.undo⟩, trivial⟩
    | none =>
      cases hcall
      exact .inl (bound_of_sizes hsize hlimit hw ho.2.2.2 (sizes_none c) _)
  | querying again =>
    simp only [Owns, hp] at ho
    simp only [call, hp, Os.ok] at hcall
    cases hcall
    cases again with
    | true => exact .inr ⟨hu.of_eq _, trivial⟩
    | false => exact waits_gotLen hsize hlimit ho.2.1 hu ho.2.2
  | sizing n => simp only [Waits, hp] at hw
  | mapQuery len request => exact waits_mapQuery hu hw hp hcall
  | mapping len mapLen =>
    simp only [call, hp, Os.ok] at hcall
    cases hcall
    exact .inl trivial
  | opening => simp only [Owns, hp] at ho
  | done r => simp only [Owns, hp] at ho

/-- Every state on the way has the path as it was. -/
def StillAt (P : Platform) (c : Ctor) (path : Option (List UInt8)) (n : Nat) : Prop :=
  ∀ k v, k ≤ n → run (alone P c) (start P c path) (List.replicate k Os.ok) = some v → v.path = path

omit hsize hlimit in
theorem StillAt.succ {n : Nat} (h : StillAt P c path n)
    (hr : run (alone P c) (start P c path) (List.replicate (n + 1) Os.ok) = some w) (hpath : w.path = path) :
    StillAt P c path (n + 1) := by
  intro k v hk hv
  rcases Nat.lt_or_eq_of_le hk with hlt | rfl
  · exact h k v (Nat.le_of_lt_succ hlt) hv
  · rw [hr] at hv
    cases hv
    exact hpath

omit hlimit in
theorem waits_start (hc : c.creates = true) : Waits P c path size (start P c path) := by
  have hrefused : ∀ {e : MmapIoError}, c.opensOrCreates = false → size = 0 ∨ P.width.maxMmapSize < size →
      ForSize e → AnonRefuses P (c.decisive path size) := by
    intro e hoc h _
    rw [Ctor.decisive, if_neg (fun hcon => by rw [hoc] at hcon; exact Bool.false_ne_true hcon.1)]
    exact anonRefuses size (h.elim .inl (fun h => .inr (.inl h)))
  unfold start
  cases c with
  | createRw n =>
    cases hsize
    by_cases h0 : size = 0
    · simp only [Waits, Ctor.begin, if_pos h0]
      exact hrefused rfl (.inl h0)
    by_cases hmax : size > P.width.maxMmapSize
    · simp only [Waits, Ctor.begin, if_neg h0, if_pos hmax]
      exact hrefused rfl (.inr hmax)
    · simp only [Waits, Ctor.begin, if_neg h0, if_neg hmax, Ctor.size]
  | build b t =>
    cases t with
    | create | createNew =>
      simp only [Waits, Ctor.begin, if_pos (of_decide_eq_true hc)]
      cases hv : validatedCreateSize P.width b.size with
      | error e =>
        rw [show b.size = some size from hsize] at hv
        exact hrefused rfl (validatedCreateSize_error hv)
      | ok n => exact (validatedCreateSize_ok hv).1
    | openOrCreate =>
      simp only [Waits, Ctor.begin, if_pos (of_decide_eq_true hc)]
    | openAs => cases hc
  | _ => cases hc

/-- **A run with every OS call succeeding** makes the file its own and is not refused for the size, or has done nothing. -/
theorem run_waits (hc : c.creates = true) (n : Nat) (w : World)
    (hr : run (alone P c) (start P c path) (List.replicate n Os.ok) = some w) :
    Bound P c w ∨ (Untouched path w ∧ Waits P c path size w ∧ StillAt P c path n) := by
  induction n generalizing w with
  | zero =>
    cases hr
    refine .inr ⟨⟨rfl, rfl⟩, waits_start hsize hc, fun k v hk hv => ?_⟩
    rw [Nat.le_zero.1 hk] at hv
    cases hv
    rfl
  | succ n ih =>
    have hr' := hr
    rw [List.replicate_succ', run_concat] at hr
    obtain ⟨v, hv, hcall⟩ := hr
    rcases ih v hv with hbound | ⟨hu, hw, hstill⟩
    · exact .inl (bound_call hbound hcall)
    · have ho : Owns P c path v := by
        rcases run_goes hc hv with ⟨ho, -⟩ | ⟨⟨r, hd⟩, -⟩
        · exact ho
        · simp only [alone, call, hd] at hcall
          cases hcall
      rcases waits_call hsize hlimit ho hu hw hcall with hbound | ⟨hu', hw'⟩
      · exact .inl hbound
      · exact .inr ⟨hu', hw', hstill.succ hr' hu'.now⟩

/-- **A size on the same side of both limits is refused before anything is done.** -/
theorem spotless_of_limit (hc : c.creates = true) : Spotless P c path size := by
  intro n w e hr hdone hfor
  rcases run_waits hsize hlimit hc n w hr with hbound | ⟨-, hw, hstill⟩
  · simp only [Bound, hdone] at hbound
    exact absurd hfor hbound
  · simp only [Waits, hdone] at hw
    exact ⟨hstill, hw hfor⟩

end

/-! ## The size between the limits -/

/-- The constructor gets to size an empty file. -/
theorem reaches_sizing (hc : c.creates = true) {size : Nat} (hsize : c.size = some size) (hpos : 0 < size)
    (hmax : size ≤ P.width.maxMmapSize) (hs : c.sizes path = true) :
    ∃ n v, run (alone P c) (start P c path) (List.replicate n Os.ok) = some v ∧ v.phase = .sizing size ∧ v.path = some [] := by
  have hvalid : validatedCreateSize P.width (some size) = .ok size := by
    simp only [validatedCreateSize, okOr_some, bind, Except.bind]
    rw [if_neg (by omega), if_neg (by omega)]
  cases c with
  | createRw n =>
    cases hsize
    refine ⟨1, ⟨some [], (Ctor.createRw size).undoFor path.isSome, .sizing size⟩, ?_, rfl, rfl⟩
    simp only [List.replicate_one, run_cons, alone, start, Ctor.begin, if_neg (Nat.pos_iff_ne_zero.1 hpos),
      if_neg (Nat.not_lt.2 hmax), call, Os.ok]
    rfl
  | build b t =>
    have hb : b.size = some size := hsize
    cases t with
    | create =>
      refine ⟨1, ⟨some [], .nothing, .sizing size⟩, ?_, rfl, rfl⟩
      simp only [List.replicate_one, run_cons, alone, start, Ctor.begin, if_pos (of_decide_eq_true hc), hb, hvalid, call,
        Os.ok]
      rfl
    | createNew =>
      obtain rfl : path = none := Option.isNone_iff_eq_none.1 hs
      refine ⟨1, ⟨some [], .remove, .sizing size⟩, ?_, rfl, rfl⟩
      simp only [List.replicate_one, run_cons, alone, start, Ctor.begin, if_pos (of_decide_eq_true hc), hb, hvalid, call,
        Os.ok]
      rfl
    | openOrCreate =>
      have hnil : path.getD [] = [] := List.isEmpty_iff.1 hs
      cases path with
      | none =>
        refine ⟨2, ⟨some [], .nothing, .sizing size⟩, ?_, rfl, rfl⟩
        simp only [List.replicate, run_cons, alone, start, Ctor.begin, if_pos (of_decide_eq_true hc), call, Os.ok,
          Ctor.size, hb, hvalid, Option.bind_some]
        rfl
      | some file =>
        obtain rfl : file = [] := hnil
        refine ⟨2, ⟨some [], .nothing, .sizing size⟩, ?_, rfl, rfl⟩
        have hmode : (Ctor.build b .openOrCreate).mode = .readWrite := of_decide_eq_true hc
        have hopens : (Ctor.build b .openOrCreate).opensOrCreates = true := hc
        simp only [List.replicate, run_cons, alone, start, Ctor.begin, if_pos (of_decide_eq_true hc), call, Os.ok,
          Option.bind_some, gotLen, hmode, World.file, Option.getD_some, List.length_nil, ne_eq, not_true_eq_false,
          reduceCtorEq, or_self, if_false, hopens, if_true, Ctor.size, hb, hvalid, Bool.false_eq_true]
        rfl
    | openAs => cases hc
  | _ => cases hc

/-- **A size the raw layer refuses, from there on**: the file is sized, and then the mapping is refused. -/
theorem refused_after_sizing (c : Ctor) {size : Nat} {v : World} (hp : v.phase = .sizing size) (hpath : v.path = some [])
    (hmax : size ≤ P.width.maxMmapSize) (hlen : P.width.maxLen < size) :
    ∃ v₁ v₂ e, call P c Os.ok v = some v₁ ∧ v₁.path = some (setLen [] size 0) ∧ call P c Os.ok v₁ = some v₂ ∧
      v₂.phase = .done (.error e) ∧ ForSize e := by
  have hl : ∃ e, mapImplLayout P.width size 0 (if c.whole then none else some size) P.granularity = .error e := by
    cases h : mapImplLayout P.width size 0 (if c.whole then none else some size) P.granularity with
    | error e => exact ⟨e, rfl⟩
    | ok l =>
      obtain ⟨⟨-, -, hle⟩, -⟩ := (mapImplLayout_eq P.gran_pow P.gran_lt l).1 h
      exfalso
      split at hle <;> simp only [Option.getD_none, Option.getD_some] at hle <;> omega
  obtain ⟨e, hl⟩ := hl
  let v₁ : World :=
    { v with path := some (setLen [] size 0), phase := .mapQuery size (if c.whole then none else some size) }
  refine ⟨v₁, v₁.fail (.io (.invalidInput e)), .io (.invalidInput e), ?_, rfl, ?_, rfl, trivial⟩
  · simp only [v₁, call, hp, Os.ok, mapFrom_of_lt (maxMmapSize_lt P hmax), hpath, Option.map_some]
  · simp only [v₁, call, Os.ok, World.file, Option.getD_some, length_setLen, hl]

theorem not_spotless (hc : c.creates = true) {size : Nat} (hsize : c.size = some size) (hmax : size ≤ P.width.maxMmapSize)
    (hlen : P.width.maxLen < size) (hs : c.sizes path = true) : ¬ Spotless P c path size := by
  intro h
  obtain ⟨n, v, hr, hp, hpath⟩ := reaches_sizing hc hsize (by omega) hmax hs
  obtain ⟨v₁, v₂, e, hcall, hpath₁, hcall₁, hdone, hfor⟩ := refused_after_sizing c hp hpath hmax hlen
  have hr₁ : run (alone P c) (start P c path) (List.replicate (n + 1) Os.ok) = some v₁ := by
    rw [List.replicate_succ', run_concat]
    exact ⟨v, hr, hcall⟩
  have hr₂ : run (alone P c) (start P c path) (List.replicate (n + 2) Os.ok) = some v₂ := by
    rw [List.replicate_succ', run_concat]
    exact ⟨v₁, hr₁, hcall₁⟩
  -- the path was an empty file, and then one of `size` bytes
  have hsame := (h (n + 2) v₂ e hr₂ hdone hfor).1
  have heq := (hsame n v (by omega) hr).trans (hsame (n + 1) v₁ (by omega) hr₁).symm
  rw [hpath, hpath₁] at heq
  have hlength := congrArg (fun p => (Option.getD p []).length) heq
  simp only [Option.getD_some, List.length_nil, length_setLen] at hlength
  omega

/-- `create_rw` of a size the raw layer refuses, over a file. -/
theorem createRw_refused (file : List UInt8) {n : Nat} {e : RangeError} (hpos : 0 < n)
    (hmax : n ≤ P.width.maxMmapSize) (hl : mapImplLayout P.width n 0 none P.granularity = .error e) :
    run (alone P (.createRw n)) (start P (.createRw n) (some file)) (List.replicate 3 Os.ok) =
      some ⟨some [], .truncate, .done (.error (.io (.invalidInput e)))⟩ := by
  simp only [List.replicate_succ, List.replicate_zero, run_cons, run_nil, alone, start, Ctor.begin,
    if_neg (Nat.pos_iff_ne_zero.1 hpos), if_neg (Nat.not_lt.2 hmax), call, Os.ok, Option.bind_some, mapFrom, Ctor.whole, if_true,
    Option.map_some, World.file, Option.getD_some, length_setLen, hl, World.fail]
  rfl

/-! ## Resizing -/

/-- The lengths `grow_locked` gives the file, one after another. -/
def growSetLens (P : Platform) (os : Os) (currentSize newSize newLen : Nat) : List Nat :=
  match os.setLen with
  | some _ => []
  | none =>
    match mapFileRw P os newSize newLen with
    | .ok _ => [newSize]
    | .error _ =>
      match os.restore with
      | none => [newSize, currentSize]
      | some _ => [newSize]

/-- The lengths either `shrink_locked` gives a file of `fileLen` bytes. -/
def shrinkSetLens (P : Platform) (os : Os) (fileLen newSize newLen : Nat) : List Nat :=
  if P.windows then
    match os.placeholder, os.setLen with
    | none, none => [newSize]
    | _, _ => []
  else
    match mapFileRw P os fileLen newLen, os.setLen with
    | .ok _, none => [newSize]
    | _, _ => []

/-- The lengths a `resize` gives the file, one after another. -/
def resizeSetLens (P : Platform) (os : Os) (newSize : Nat) (s : Inner) : List Nat :=
  if s.mode ≠ .readWrite ∨ newSize = 0 ∨ newSize > P.width.maxMmapSize then []
  else
    match tryFrom P.width.bits newSize, s.map with
    | some newLen, .rw currentLen =>
      if newLen = currentLen then []
      else if currentLen < newLen then growSetLens P os currentLen newSize newLen
      else shrinkSetLens P os s.file.length newSize newLen
    | _, _ => []

section

variable {s : Inner} {len size : Nat}

/-- **These are what a `resize` does to the file.** -/
theorem resize_file (os : Os) (size : Nat) (s : Inner) :
    (MmapIo.resize P os size s).2.file = (resizeSetLens P os size s).foldl (fun file n => setLen file n 0) s.file := by
  unfold MmapIo.resize resizeSetLens
  by_cases hmode : s.mode ≠ .readWrite
  · rw [if_pos hmode, if_pos (.inl hmode)]
    rfl
  rw [if_neg hmode]
  by_cases h0 : size = 0
  · rw [if_pos h0, if_pos (.inr (.inl h0))]
    rfl
  rw [if_neg h0]
  by_cases hmax : size > P.width.maxMmapSize
  · rw [if_pos hmax, if_pos (.inr (.inr hmax))]
    rfl
  rw [if_neg hmax, if_neg (by simp only [hmode, h0, hmax, or_self, not_false_eq_true])]
  cases tryFrom P.width.bits size with
  | none => rfl
  | some newLen =>
    cases s.map with
    | ro n => rfl
    | cow bytes => rfl
    | rw currentLen =>
      simp only [resizeLocked]
      by_cases heq : newLen = currentLen
      · rw [if_pos heq, if_pos heq]
        rfl
      rw [if_neg heq, if_neg heq]
      by_cases hgrow : currentLen < newLen
      · rw [if_pos hgrow, if_pos hgrow]
        simp only [growLocked, growSetLens, length_setLen]
        cases os.setLen with
        | some text => rfl
        | none =>
          simp only
          cases mapFileRw P os size newLen with
          | ok n => rfl
          | error e => cases os.restore <;> rfl
      rw [if_neg hgrow, if_neg hgrow]
      simp only [shrinkLockedWindows, shrinkLockedUnix, shrinkSetLens, length_setLen]
      cases P.windows with
      | true =>
        simp only [if_true]
        cases os.placeholder with
        | some text => rfl
        | none =>
          cases os.setLen with
          | some text =>
            simp only
            cases mapFileRw P os s.file.length currentLen <;> rfl
          | none =>
            simp only
            cases mapFileRw P os size newLen <;> rfl
      | false =>
        simp only [Bool.false_eq_true, if_false]
        cases mapFileRw P os s.file.length newLen with
        | error e => rfl
        | ok n => cases os.setLen <;> rfl

/-- **A `resize` that is refused with every OS call succeeding changed nothing on the way**; and an anonymous mapping of that
size is refused too. -/
def SpotlessResize (P : Platform) (s : Inner) (size : Nat) : Prop :=
  ∀ e, (MmapIo.resize P Os.ok size s).1 = .error e →
    resizeSetLens P Os.ok size s = [] ∧ (MmapIo.resize P Os.ok size s).2 = s ∧ AnonRefuses P size

/-- **A size both layers take is granted.** -/
theorem resize_admitted (h : Shape P s len) (hpos : 0 < size) (hsize : size ≤ P.width.maxMmapSize)
    (hmax : size ≤ P.width.maxLen) : (MmapIo.resize P Os.ok size s).1 = .ok () := by
  have hfile := h.le_file
  have hmap : mapFileRw P Os.ok size size = .ok size := mapFileRw_of_le rfl rfl (Nat.le_refl _) hmax
  unfold MmapIo.resize
  rw [if_neg (not_not.2 h.mode), if_neg (by omega), if_neg (by omega), tryFrom_of_lt (maxMmapSize_lt P hsize), h.map]
  simp only [resizeLocked]
  by_cases heq : size = len
  · rw [if_pos heq]
  rw [if_neg heq]
  by_cases hgrow : len < size
  · rw [if_pos hgrow]
    simp only [growLocked, length_setLen, hmap]
    rfl
  rw [if_neg hgrow]
  cases P.windows with
  | true =>
    rw [if_pos rfl]
    simp only [shrinkLockedWindows, length_setLen, hmap]
    rfl
  | false =>
    have hmapf : mapFileRw P Os.ok s.file.length size = .ok size := mapFileRw_of_le rfl rfl (by omega) hmax
    rw [if_neg Bool.false_ne_true]
    simp only [shrinkLockedUnix, hmapf]
    rfl

/-- **A size that passes only the managed checks** is given to the file, and then refused. -/
theorem resize_between (h : Shape P s len) (hsize : size ≤ P.width.maxMmapSize) (hlen : P.width.maxLen < size) :
    ∃ e, (MmapIo.resize P Os.ok size s).1 = .error e ∧ resizeSetLens P Os.ok size s = [size, len] := by
  have hle := h.le_max
  have hmap : ∃ e, mapFileRw P Os.ok size size = .error e := by
    cases hm : mapFileRw P Os.ok size size with
    | error e => exact ⟨e, rfl⟩
    | ok n =>
      have := (mapFileRw_ok hm).2.2
      omega
  obtain ⟨e, hmap⟩ := hmap
  refine ⟨.io e, ?_, ?_⟩
  · unfold MmapIo.resize
    rw [if_neg (not_not.2 h.mode), if_neg (by omega), if_neg (by omega), tryFrom_of_lt (maxMmapSize_lt P hsize), h.map]
    simp only [resizeLocked]
    rw [if_neg (by omega), if_pos (by omega)]
    simp only [growLocked, length_setLen, hmap]
    rfl
  · unfold resizeSetLens
    rw [if_neg (by simp only [h.mode, ne_eq, not_true_eq_false, false_or]; omega), tryFrom_of_lt (maxMmapSize_lt P hsize), h.map]
    simp only
    rw [if_neg (by omega), if_pos (by omega), growSetLens, hmap]
    rfl

theorem spotlessResize_iff (h : Shape P s len) (size : Nat) :
    SpotlessResize P s size ↔ ¬ (P.width.maxLen < size ∧ size ≤ P.width.maxMmapSize) := by
  constructor
  · rintro hs ⟨hlen, hsize⟩
    obtain ⟨e, he, hlog⟩ := resize_between h hsize hlen
    cases hlog.symm.trans (hs e he).1
  · intro hnot e he
    by_cases hrefused : size = 0 ∨ P.width.maxMmapSize < size
    · have hlog : resizeSetLens P Os.ok size s = [] := by
        rw [resizeSetLens, if_pos (.inr hrefused)]
      refine ⟨hlog, ?_, anonRefuses size (hrefused.elim .inl (fun h => .inr (.inl h)))⟩
      unfold MmapIo.resize
      rw [if_neg (not_not.2 h.mode)]
      by_cases h0 : size = 0
      · rw [if_pos h0]
      · rw [if_neg h0, if_pos (hrefused.resolve_left h0)]
    · rw [resize_admitted h (by omega) (by omega) (by omega)] at he
      cases he

end

/-- **Size rejection and the file.**  For every target: each of the creating constructors, on every path and with every size,
and `resize` of every shared mapping to every size, when refused although every OS call succeeded, has left the file alone
all the way and asked for a size that `AnonymousMmap::new` refuses too, exactly when it is not the 2 GiB of a 32-bit target
coming to size the file; and every size the managed layer admits is admitted by the raw layer exactly on a 64-bit target. -/
theorem size_rejection (P : Platform) :
    (∀ c path size, c.creates = true → c.size = some size →
      (Spotless P c path size ↔ ¬ (P.width = .w32 ∧ size = 2 ^ 31 ∧ c.sizes path = true))) ∧
    (∀ s len size, Shape P s len → (SpotlessResize P s size ↔ ¬ (P.width = .w32 ∧ size = 2 ^ 31))) ∧
    ((∀ size, validatedCreateSize P.width (some size) = .ok size → size ≤ P.width.maxLen) ↔ P.width = .w64) := by
  refine ⟨fun c path size hc hsize => ?_, fun s len size h => ?_, ?_⟩
  · rw [← and_assoc, ← between_limits]
    constructor
    · rintro hs ⟨⟨hlen, hmax⟩, hsizes⟩
      exact not_spotless hc hsize hmax hlen hsizes hs
    · intro hnot
      refine spotless_of_limit hsize (fun hmax hsizes => ?_) hc
      by_contra hlen
      exact hnot ⟨⟨Nat.not_le.1 hlen, hmax⟩, hsizes⟩
  · rw [spotlessResize_iff h, between_limits]
  · constructor
    · intro hall
      cases hw : P.width with
      | w64 => rfl
      | w32 =>
        rw [hw] at hall
        exact absurd (hall (2 ^ 31) (by decide)) (by decide)
    · intro hw size hvalid
      obtain ⟨-, -, hmax⟩ := validatedCreateSize_ok hvalid
      by_contra hlen
      have := (between_limits P.width size).1 ⟨Nat.not_le.1 hlen, hmax⟩
      rw [hw] at this
      cases this.1

theorem page_pow_w32 : Nat.isPowerOfTwo 4096 := ⟨12, rfl⟩

theorem page_lt_w32 : 4096 < 2 ^ Width.w32.bits := by decide

def linux32 : Platform where
  width := .w32
  windows := false
  linux := true
  page := 4096
  granularity := 4096
  page_pow := page_pow_w32
  page_lt := page_lt_w32
  gran_pow := page_pow_w32
  gran_lt := page_lt_w32

/-- `create_rw` of 3 GiB over a file with data, on a 32-bit target: refused at once. -/
theorem size_rejection_threeGiB : Spotless linux32 (.createRw (3 * 2 ^ 30)) (some [1, 2, 3]) (3 * 2 ^ 30) :=
  ((size_rejection linux32).1 (.createRw (3 * 2 ^ 30)) (some [1, 2, 3]) (3 * 2 ^ 30) rfl rfl).2 (by decide)

theorem layout_between : mapImplLayout .w32 (2 ^ 31) 0 none 4096 = .error (.exceedsMax (2 ^ 31) (2 ^ 31 - 1)) := by
  have hr : resolveLen .w32 (2 ^ 31) 0 none Width.w32.maxLen = .error (.exceedsMax (2 ^ 31) (2 ^ 31 - 1)) := by decide
  rw [mapImplLayout, hr]
  rfl

/-- `create_rw` of 2 GiB over a file with data, on a 32-bit target: every OS call succeeds, the mapping is refused for its
length, and the data is gone. -/
theorem truncated_then_refused : run (alone linux32 (.createRw (2 ^ 31))) (start linux32 (.createRw (2 ^ 31)) (some [1, 2, 3]))
      (List.replicate 3 Os.ok) =
      some ⟨some [], .truncate, .done (.error (.io (.invalidInput (.exceedsMax (2 ^ 31) (2 ^ 31 - 1)))))⟩ ∧
    ¬ Spotless linux32 (.createRw (2 ^ 31)) (some [1, 2, 3]) (2 ^ 31) := by
  have hmax : 2 ^ 31 ≤ linux32.width.maxMmapSize := by decide
  have hlen : linux32.width.maxLen < 2 ^ 31 := by decide
  exact ⟨createRw_refused [1, 2, 3] (by decide) hmax layout_between, not_spotless rfl rfl hmax hlen rfl⟩

end Construct
end MmapIo
