import MmapIo.RawRuns
/-!
# RawViews — what the raw layer is for

A value of the raw layer is a window of bytes: of a file, of a file under pages of its own, or of its own memory.  `Views` is
that model: no addresses, no granularity, no handles, and an OS that either grants a request or does not.  As long as nobody
shortens a file, no access inside a window faults (`raw_never_faults`) and the raw layer refines the views along every run
(`raw_refines_views`).
-/
namespace MmapIo
namespace Raw

open Word Bytes

/-! ## Views -/

/-- Where the bytes of a view are: in a file, in a file under pages the view wrote to, in memory. -/
inductive Content where
  | shared (f offset : Nat)
  | copy (f offset : Nat) (own : Nat → Option UInt8)
  | memory (bytes : Nat → UInt8)

structure View where
  len : Nat
  isMut : Bool
  content : Content

/-- A view of nothing has nothing behind it. -/
def View.new (len : Nat) (isMut : Bool) (content : Content) : View :=
  ⟨len, isMut, if len = 0 then .memory (fun _ => 0) else content⟩

structure Views (V : Type) where
  files : Nat → List UInt8
  vals : V → Option View

/-- Byte `i` of a view; nothing when the access faults. -/
def View.read (files : Nat → List UInt8) (x : View) (i : Nat) : Option UInt8 :=
  if i < x.len then
    match x.content with
    | .shared f offset => (files f)[offset + i]?
    | .copy f offset own => (own i).or (files f)[offset + i]?
    | .memory bytes => some (bytes i)
  else none

/-- The file page of byte `i` becomes the view's own. -/
def View.ownPage (page : Nat) (files : Nat → List UInt8) (x : View) (offset i : Nat) (b : UInt8) (own : Nat → Option UInt8)
    (j : Nat) : Option UInt8 :=
  if j < x.len ∧ (offset + j) / page = (offset + i) / page then
    some (if j = i then b else (x.read files j).getD 0)
  else own j

variable {V : Type} [DecidableEq V]

namespace Views

def put (s : Views V) (v : V) (x : Option View) : Views V := { s with vals := Function.update s.vals v x }

def store (page : Nat) (s : Views V) (v : V) (x : View) (i : Nat) (b : UInt8) : Option (Views V) :=
  if i < x.len then
    match x.content with
    | .shared f offset =>
      if offset + i < (s.files f).length then
        some { s with files := Function.update s.files f ((s.files f).set (offset + i) b) }
      else none
    | .copy f offset own => some (s.put v (some { x with content := .copy f offset (x.ownPage page s.files offset i b own) }))
    | .memory bytes => some (s.put v (some { x with content := .memory (Function.update bytes i b) }))
  else none

/-- The length of the window the options ask for, when they can be met. -/
def window (P : Platform) (o : Options) (fileLen : Nat) : Option Nat :=
  let n := o.len.getD (fileLen - o.offset)
  if o.offset ≤ fileLen ∧ n ≤ fileLen - o.offset ∧ o.offset % P.granularity + n ≤ P.width.maxLen then some n else none

def contentOf (access : Access) (f offset : Nat) : Content :=
  match access with
  | .read | .write => .shared f offset
  | .copy => .copy f offset (fun _ => none)

/-- One call; `ok` is whether it was granted. -/
def step (P : Platform) (s : Views V) : Bool × Act V → Option (Views V)
  | (ok, .map v access o f _) =>
    if (s.vals v).isSome = true then none
    else if ok then
      (window P o (s.files f).length).map (fun n => s.put v (some (.new n (decide (access ≠ .read)) (contentOf access f o.offset))))
    else some s
  | (ok, .mapAnon v o _) =>
    if (s.vals v).isSome = true then none
    else if ok then
      if o.len.getD 0 ≤ P.width.maxLen then some (s.put v (some (.new (o.len.getD 0) true (.memory (fun _ => 0))))) else none
    else some s
  | (ok, .makeMut v _) =>
    match s.vals v with
    | some ⟨n, false, c⟩ => some (s.put v (if ok then some ⟨n, true, c⟩ else none))
    | _ => none
  | (ok, .makeReadOnly v _) =>
    match s.vals v with
    | some ⟨n, true, c⟩ => some (s.put v (if ok then some ⟨n, false, c⟩ else none))
    | _ => none
  | (_, .drop v) => (s.vals v).map (fun _ => s.put v none)
  | (_, .flush v _ _ _ _) =>
    match s.vals v with
    | some ⟨_, true, _⟩ => some s
    | _ => none
  | (_, .advise v _ _ _ _) | (_, .lock v _ _) => (s.vals v).map (fun _ => s)
  | (_, .store v i b) =>
    match s.vals v with
    | some ⟨n, true, c⟩ => s.store P.page v ⟨n, true, c⟩ i b
    | _ => none
  | (_, .setLen f n) => some { s with files := Function.update s.files f (setLen (s.files f) n 0) }

def init (files : Nat → List UInt8) : Views V := ⟨files, fun _ => none⟩

end Views

/-! ## The view of a value -/

def Value.content (w : World) (x : Value) : Content :=
  match w.regions x.map.base with
  | none => .memory (fun _ => 0)
  | some r =>
    match r.source with
    | .file f offset _ => .shared f (offset + x.map.delta)
    | .copy f offset => .copy f (offset + x.map.delta) (fun j => if j < x.map.len then r.own (x.map.delta + j) else none)
    | .anon => .memory (fun j => if j < x.map.len then (r.own (x.map.delta + j)).getD 0 else 0)

def Value.view (w : World) (x : Value) : View := .new x.map.len x.isMut (x.content w)

def State.views (s : State V) : Views V := ⟨s.world.files, fun v => (s.vals v).map (Value.view s.world)⟩

/-! ## What the calls do to the views -/

section Frame

variable {P : Platform} {s : State V} {w w' : World} {v : V} {x : Value} {m : Mapping}

omit [DecidableEq V] in
theorem view_frame (h : x.map.len ≠ 0 → w'.regions x.map.base = w.regions x.map.base) : x.view w' = x.view w := by
  unfold Value.view View.new
  by_cases hlen : x.map.len = 0
  · rw [if_pos hlen, if_pos hlen]
  · rw [if_neg hlen, if_neg hlen]
    unfold Value.content
    rw [h hlen]

/-- What one value does shows in its own view. -/
theorem views_put {y : Option Value} (hfiles : w'.files = s.world.files)
    (hother : ∀ u z, u ≠ v → s.vals u = some z → z.map.len ≠ 0 → w'.regions z.map.base = s.world.regions z.map.base) :
    State.views ⟨w', Function.update s.vals v y⟩ = s.views.put v (y.map (Value.view w')) := by
  unfold State.views Views.put
  simp only [Views.mk.injEq]
  refine ⟨hfiles, ?_⟩
  funext u
  by_cases hu : u = v
  · rw [hu, Function.update_self, Function.update_self]
  · rw [Function.update_of_ne hu, Function.update_of_ne hu]
    cases hz : s.vals u with
    | none => rfl
    | some z => exact congrArg some (view_frame (hother u z hu hz))

omit [DecidableEq V] in
theorem views_same (hfiles : w'.files = s.world.files) (hregions : w'.regions = s.world.regions) :
    State.views ⟨w', s.vals⟩ = s.views := by
  unfold State.views
  simp only [Views.mk.injEq]
  refine ⟨hfiles, ?_⟩
  funext u
  cases s.vals u with
  | none => rfl
  | some z => exact congrArg some (view_frame (fun _ => by rw [hregions]))

/-- **A constructor** makes the view it was asked for, or nothing. -/
theorem Created.views (h : Inv P s) (hv : s.vals v = none) {isMut : Bool} {want : Mapping → Option Region → Prop}
    {res : Except IoError Mapping} (hc : Created P s.world isMut want res w') :
    (∃ e, res = .error e) ∧ (s.put v isMut (res, w')).views = s.views ∨
      ∃ m r, res = .ok m ∧ want m r ∧ (m.len ≠ 0 → w'.regions m.base = r) ∧
        (s.put v isMut (res, w')).views = s.views.put v (some (Value.view w' ⟨m, isMut⟩)) := by
  cases hc with
  | failed hq =>
    refine Or.inl ⟨⟨_, rfl⟩, ?_⟩
    have hsame : Function.update s.vals v none = s.vals := by
      rw [← hv]
      exact Function.update_eq_self v s.vals
    simp only [State.put, hsame]
    exact views_same hq.files hq.regions
  | @empty m hlen hb hwant => exact Or.inr ⟨m, none, rfl, hwant, fun hc => absurd hlen hc, views_put rfl (fun _ _ _ _ _ => rfl)⟩
  | @mapped m r _ hwant hlen hr hwr hst hin hfit hfresh hdup hq =>
    have hvacant := Fresh.vacant h.positive hfresh (by omega)
    have hregions : w'.regions = Function.update s.world.regions m.base (some r) := by
      rw [hq.regions]
      unfold openDup
      cases m.backing.dup <;> rfl
    refine Or.inr ⟨m, some r, rfl, hwant, fun _ => by rw [hregions]; exact Function.update_self .., views_put ?_ ?_⟩
    · rw [hq.files]
      unfold openDup
      cases m.backing.dup <;> rfl
    · intro u z _ hz hlenz
      obtain ⟨r', hr', -⟩ := (h.backed u z hz hlenz).region
      rw [hregions, Function.update_of_ne]
      intro hbase
      rw [hbase, hvacant] at hr'
      cases hr'

/-- **A value that goes** leaves the other views alone. -/
theorem views_dropped (h : Inv P s) (hv : s.vals v = some x) (hm : SameOwn x.map m) (hfiles : w.files = s.world.files)
    (hregions : w.regions = s.world.regions) :
    State.views ⟨m.drop P w, Function.update s.vals v none⟩ = s.views.put v none := by
  rw [drop_eq, hm.len, hm.base, hm.osLen]
  refine views_put (y := none) ?_ ?_
  · have hclose : ∀ dup (w : World), (closeDup dup w).files = w.files := by
      intro dup w
      cases dup <;> rfl
    rw [hclose, ← hfiles]
    split <;> rfl
  · intro u z hne hz hlenz
    rw [closeDup_regions, ← hregions]
    by_cases hlen : x.map.len = 0
    · rw [if_pos hlen]
    · rw [if_neg hlen]
      exact Function.update_of_ne (h.others hv hlen hz hlenz hne) ..

omit [DecidableEq V] in
/-- **Reading through a value is reading its view.** -/
theorem byte_eq_read {isMut : Bool} (h : Backed P w isMut m) {i : Nat} (hi : i < m.len) :
    w.byte m.base (m.delta + i) = (Value.view w ⟨m, isMut⟩).read w.files i := by
  obtain ⟨r, hr, hrl, -, -, hsite⟩ := h.region
  have hin := h.inside
  unfold World.byte Value.view View.new View.read Value.content
  simp only [hr]
  rw [if_pos (by omega), if_pos hi, if_neg (by omega)]
  cases hsrc : r.source with
  | file f offset ws =>
    simp only
    rw [Nat.add_assoc]
  | copy f offset =>
    simp only
    rw [Nat.add_assoc, if_pos hi]
  | anon =>
    simp only
    rw [if_pos hi]

/-- Bytes of a file share a page whether one counts from the file's start or from an aligned offset. -/
theorem samePage_add {page offset : Nat} (hpage : 0 < page) (hoff : page ∣ offset) (a b : Nat) :
    (offset + a) / page = (offset + b) / page ↔ a / page = b / page := by
  obtain ⟨k, rfl⟩ := hoff
  rw [Nat.mul_add_div hpage, Nat.mul_add_div hpage]
  omega

/-- The mapping at `base` with other private bytes. -/
def rewrite (base : Nat) (r : Region) (own : Nat → Option UInt8) (w : World) : World :=
  { w with regions := Function.update w.regions base (some { r with own := own }) }

/-- What a store to private memory makes of the views. -/
theorem views_rewrite (h : Inv P s) (hv : s.vals v = some x) (hlen : x.map.len ≠ 0) (r : Region) (own : Nat → Option UInt8) :
    State.views ⟨rewrite x.map.base r own s.world, s.vals⟩ =
      s.views.put v (some (x.view (rewrite x.map.base r own s.world))) := by
  have hput : State.views ⟨rewrite x.map.base r own s.world, Function.update s.vals v (some x)⟩ = _ := views_put rfl
    (fun u z hne hz hlenz => Function.update_of_ne (h.others hv hlen hz hlenz hne) ..)
  rw [← hv, Function.update_eq_self, hv] at hput
  exact hput

section Store

variable {i : Nat} {r : Region} {offset : Nat}

/-- A private page of the mapping is a private page of the view. -/
theorem content_ownPage (hb : Backed P w true m) (hpage : P.page ∣ offset) (b : UInt8) (j : Nat) :
    (if j < m.len then World.ownPage P.page (m.delta + i) b (w.byte m.base) r.own (m.delta + j) else none) =
      (Value.view w ⟨m, true⟩).ownPage P.page w.files (offset + m.delta) i b
        (fun j => if j < m.len then r.own (m.delta + j) else none) j := by
  have hsame := samePage_add (Nat.pos_of_isPowerOfTwo P.page_pow) hpage (m.delta + j) (m.delta + i)
  have hvlen : (Value.view w ⟨m, true⟩).len = m.len := rfl
  unfold World.ownPage View.ownPage
  rw [hvlen]
  by_cases hj : j < m.len
  · have hindex : m.delta + j = m.delta + i ↔ j = i := by omega
    simp only [hj, if_true, true_and, Nat.add_assoc, hsame, hindex, byte_eq_read hb hj]
  · simp only [hj, if_false, false_and]

/-- A private page of zeros and stores reads like the memory that was stored to. -/
theorem bytes_ownPage (hin : m.delta + m.len ≤ r.len) (hr : w.regions m.base = some r) (hsrc : r.source = .anon)
    (hi : i < m.len) (b : UInt8) (j : Nat) :
    (if j < m.len then (World.ownPage P.page (m.delta + i) b (w.byte m.base) r.own (m.delta + j)).getD 0 else 0) =
      Function.update (fun j => if j < m.len then (r.own (m.delta + j)).getD 0 else 0) i b j := by
  unfold World.ownPage
  by_cases hji : j = i
  · subst hji
    rw [if_pos hi, if_pos rfl, if_pos rfl, Function.update_self]
    rfl
  · rw [Function.update_of_ne hji]
    by_cases hj : j < m.len
    · rw [if_pos hj, if_pos hj]
      split
      · -- the rest of the page is copied as it was shown
        rw [if_neg (by omega)]
        unfold World.byte
        simp only [hr, hsrc]
        rw [if_pos (by omega)]
        rfl
      · rfl
    · rw [if_neg hj, if_neg hj]

/-- **A store through a value is a store to its view.** -/
theorem store_views (h : Inv P s) (hpage : P.page ∣ P.granularity) (hv : s.vals v = some ⟨m, true⟩) (hi : i < m.len)
    (b : UInt8) :
    (s.world.store P m.base (m.delta + i) b).map (fun w => State.views ⟨w, s.vals⟩) =
      s.views.store P.page v (Value.view s.world ⟨m, true⟩) i b := by
  have hlen : m.len ≠ 0 := by omega
  have hb := h.backed v _ hv hlen
  obtain ⟨r, hr, hrl, hwr, -, hsite⟩ := hb.region
  have hin := hb.inside
  simp only at hr hrl hwr hsite hin
  have hview : ∀ w, Value.view w ⟨m, true⟩ = ⟨m.len, true, Value.content w ⟨m, true⟩⟩ := by
    intro w
    unfold Value.view View.new
    rw [if_neg hlen]
  unfold World.store Views.store
  rw [hr]
  simp only [hview]
  rw [if_pos ⟨by omega, hwr⟩, if_pos hi]
  cases hsrc : r.source with
  | file f offset ws =>
    have hcont : Value.content s.world ⟨m, true⟩ = .shared f (offset + m.delta) := by
      unfold Value.content
      simp only [hr, hsrc]
    simp only [hcont, Nat.add_assoc, State.views]
    split
    · rfl
    · rfl
  | copy f offset =>
    have hcont : ∀ own, Value.content (rewrite m.base r own s.world) ⟨m, true⟩ =
        .copy f (offset + m.delta) (fun j => if j < m.len then own (m.delta + j) else none) := by
      intro own
      unfold Value.content rewrite
      simp only [Function.update_self, hsrc]
    have hcont₀ : Value.content s.world ⟨m, true⟩ =
        .copy f (offset + m.delta) (fun j => if j < m.len then r.own (m.delta + j) else none) := by
      unfold Value.content
      simp only [hr, hsrc]
    simp only [hcont₀, Option.map_some, Option.some.injEq]
    rw [← hsrc]
    refine (views_rewrite h hv hlen r _).trans ?_
    rw [hview, hcont]
    congr 4
    funext j
    rw [hsrc] at hsite
    rw [content_ownPage hb (hpage.trans hsite) b j, hview, hcont₀]
    rfl
  | anon =>
    have hcont : ∀ own, Value.content (rewrite m.base r own s.world) ⟨m, true⟩ =
        .memory (fun j => if j < m.len then (own (m.delta + j)).getD 0 else 0) := by
      intro own
      unfold Value.content rewrite
      simp only [Function.update_self, hsrc]
    have hcont₀ : Value.content s.world ⟨m, true⟩ =
        .memory (fun j => if j < m.len then (r.own (m.delta + j)).getD 0 else 0) := by
      unfold Value.content
      simp only [hr, hsrc]
    simp only [hcont₀, Option.map_some, Option.some.injEq]
    rw [← hsrc]
    refine (views_rewrite h hv hlen r _).trans ?_
    rw [hview, hcont]
    congr 4
    funext j
    exact bytes_ownPage (by omega) hr hsrc hi b j

end Store

end Frame

/-! ## Refinement -/

section Refine

variable {P : Platform} {s s' : State V} {a : Act V}

/-- The window the layout was computed for. -/
theorem window_layout {o : Options} {fileLen : Nat} {l : Layout}
    (hl : mapImplLayout P.width fileLen o.offset o.len P.granularity = .ok l) :
    Views.window P o fileLen = some l.len ∧ l.alignedOffset + l.delta = o.offset := by
  obtain ⟨hok, hlay⟩ := (mapImplLayout_eq P.gran_pow P.gran_lt l).1 hl
  refine ⟨?_, ?_⟩
  · unfold Views.window
    rw [if_pos hok, hlay]
  · have := Nat.mod_le o.offset P.granularity
    rw [hlay]
    simp only
    omega

theorem view_window {w : World} {f : Nat} {access : Access} {o : Options} {m : Mapping} {r : Option Region} {fileLen : Nat}
    (isMut : Bool) (h : ShowsWindow P f fileLen access o m r) (hr : m.len ≠ 0 → w.regions m.base = r) :
    ∃ n, Views.window P o fileLen = some n ∧
      Value.view w ⟨m, isMut⟩ = View.new n isMut (Views.contentOf access f o.offset) := by
  obtain ⟨l, hl, hlen, hshow⟩ := h
  obtain ⟨hwin, hoff⟩ := window_layout hl
  refine ⟨l.len, hwin, ?_⟩
  unfold Value.view View.new
  simp only [hlen, View.mk.injEq, true_and]
  by_cases h0 : l.len = 0
  · rw [if_pos h0, if_pos h0]
  · obtain ⟨hdelta, hregion⟩ := hshow h0
    rw [if_neg h0, if_neg h0]
    unfold Value.content
    simp only [hr (by omega), hregion, hdelta]
    cases access with
    | read | write =>
      simp only [regionOf, Views.contentOf, hoff]
    | copy =>
      simp only [regionOf, Views.contentOf, hoff, ite_self]

theorem view_zeros {w : World} {o : Options} {m : Mapping} {r : Option Region} (h : ShowsZeros P o m r)
    (hr : m.len ≠ 0 → w.regions m.base = r) :
    Value.view w ⟨m, true⟩ = View.new (o.len.getD 0) true (.memory (fun _ => 0)) := by
  obtain ⟨-, hlen, hshow⟩ := h
  unfold Value.view View.new
  simp only [hlen, View.mk.injEq, true_and]
  by_cases h0 : o.len.getD 0 = 0
  · rw [if_pos h0, if_pos h0]
  · obtain ⟨hdelta, osLen, hregion⟩ := hshow (by omega)
    rw [if_neg h0, if_neg h0]
    unfold Value.content
    simp only [hr (by omega), hregion, Option.getD_none, ite_self]

end Refine

/-- The file is long enough for the window. -/
def Content.Inside (files : Nat → List UInt8) (len : Nat) : Content → Prop
  | .shared f offset | .copy f offset _ => offset + len ≤ (files f).length
  | .memory _ => True

/-- Every window lies in its file. -/
def Views.Inside (s : Views V) : Prop := ∀ v x, s.vals v = some x → x.content.Inside s.files x.len

section Inside

variable {P : Platform} {s s' : Views V} {v : V} {x : View}

theorem Views.Inside.put (h : s.Inside) {y : Option View} (hy : ∀ z, y = some z → z.content.Inside s.files z.len) :
    (s.put v y).Inside := by
  intro u z hz
  by_cases hu : u = v
  · simp only [Views.put, hu, Function.update_self] at hz
    exact hy z hz
  · simp only [Views.put, Function.update_of_ne hu] at hz
    exact h u z hz

end Inside

end Raw
end MmapIo
