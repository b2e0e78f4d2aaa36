import Mathlib.Data.List.Pairwise
import MmapIo.Align
import MmapIo.Lib.Text
/-!
# HugePages — what the kernel's texts say about huge pages

`is_hugepage_backed` reads `/proc/self/smaps` line by line: a header line opens an entry, and the value lines of the entry
whose range contains the base decide.  An `Entry` is a header and its field lines; no line of the one kind parses as the
other (`parseSmapsRange_header`, `parseSmapsRange_field`), so the scan answers for the first entry that contains the base
(`isHugepageBacked_eq`) and looks at no other: where the kernel has split the mapping, the rest of it goes unread.
`huge_page_size` reads `/proc/meminfo` with the same readers, once: every layout of a run rounds to one power of two.
-/
namespace MmapIo
namespace HugePages

open Text Word

/-! ## The scan -/

/-- `parse_smaps_range`. -/
def parseSmapsRange (w : Width) (line : List Char) : Option (Nat × Nat) := do
  let first ← firstToken line
  let (loS, hiS) ← splitOnce '-' first
  let lo ← fromStrRadix w.bits 16 loS
  let hi ← fromStrRadix w.bits 16 hiS
  pure (lo, hi)

/-- `parse_smaps_kb_field`: the first prefix the line has decides. -/
def parseSmapsKbField (line : List Char) : List (List Char) → Option Nat
  | [] => none
  | p :: prefixes =>
    match line.dropPrefix? p with
    | some rest => (firstToken rest).bind (fromStrRadix 64 10)
    | none => parseSmapsKbField line prefixes

/-- The prefixes of the three huge-page values. -/
def hugePrefixes : List (List Char) :=
  ["AnonHugePages:".toList, "Private_Hugetlb:".toList, "Shared_Hugetlb:".toList]

/-- The loop state of `smaps_hugepage_lookup`. -/
structure Scan where
  inRange : Bool
  foundAnyHugepage : Bool
  matchedAtLeastOnce : Bool
  deriving DecidableEq, Repr

/-- One round of the loop; `.error` is the early return. -/
def scanLine (w : Width) (base : Nat) (s : Scan) (line : List Char) : Except (Option Bool) Scan :=
  match parseSmapsRange w line with
  | some (lo, hi) =>
    if s.inRange then .error (some s.foundAnyHugepage)
    else if lo ≤ base ∧ base < hi then .ok ⟨true, false, true⟩
    else .ok s
  | none =>
    if s.inRange then
      match parseSmapsKbField line hugePrefixes with
      | some kb => if 0 < kb then .ok { s with foundAnyHugepage := true } else .ok s
      | none => .ok s
    else .ok s

/-- The loop and the decision after it.  A line that cannot be read (`none`) ends the call. -/
def scanLines (w : Width) (base : Nat) : Scan → List (Option (List Char)) → Option Bool
  | s, [] => if s.matchedAtLeastOnce then some s.foundAnyHugepage else none
  | _, none :: _ => none
  | s, some line :: rest =>
    match scanLine w base s line with
    | .error answer => answer
    | .ok s' => scanLines w base s' rest

/-- `smaps_hugepage_lookup`, `smaps` being the lines of the file as they are read; `none` when it cannot be opened. -/
def smapsHugepageLookup (w : Width) (smaps : Option (List (Option (List Char)))) (base : Nat) : Option Bool :=
  smaps.bind (scanLines w base ⟨false, false, false⟩)

/-- What the reader yields for a file that holds `text`. -/
def readLines (text : List Char) : Option (List (Option (List Char))) := some ((lines text).map some)

/-- `is_hugepage_backed` of a mapping at `base`, for a file mapping and an anonymous one alike. -/
def isHugepageBacked (w : Width) (linux : Bool) (smaps : Option (List (Option (List Char)))) (base : Nat) :
    Option Bool :=
  if linux then smapsHugepageLookup w smaps base else none

/-- The size `huge_page_size` reads off `/proc/meminfo`: 2 MiB when it cannot be read or is no power of two. -/
def readHugePageSize (w : Width) (meminfo : Option (List Char)) : Nat :=
  let kb := meminfo.bind (fun text =>
    (((lines text).findSome? (·.dropPrefix? "Hugepagesize:".toList)).bind firstToken).bind (fromStrRadix w.bits 10))
  ((kb.bind (fun kb => checkedMul w.bits kb 1024)).filter (fun n => decide n.isPowerOfTwo)).getD (2 * 1024 * 1024)

/-- `huge_page_size`: the size, and the cache after the call; 0 is an empty cache. -/
def hugePageSize (w : Width) (cached : Nat) (meminfo : Option (List Char)) : Nat × Nat :=
  if cached ≠ 0 then (cached, cached)
  else (readHugePageSize w meminfo, readHugePageSize w meminfo)

/-- The sizes of one call after another, each with the text it would read. -/
def hugePageSizes (w : Width) : Nat → List (Option (List Char)) → List Nat
  | _, [] => []
  | cached, meminfo :: later =>
    (hugePageSize w cached meminfo).1 :: hugePageSizes w (hugePageSize w cached meminfo).2 later

/-! ## The text of the kernel -/

/-- A header line `lo-hi ...`: a non-empty range of addresses, and what follows it. -/
structure Header (w : Width) where
  loText : Numeral 16
  hiText : Numeral 16
  tail : List Char
  ordered : loText.value < hiText.value
  fits : hiText.value < 2 ^ w.bits
  closed : Closes tail

/-- The name of a field, without its colon. -/
structure Name where
  text : List Char
  bare : ∀ c ∈ text, isWhite c = false ∧ c ≠ ':'

/-- A value in kilobytes: padding, the number, and its unit. -/
structure KbValue where
  pad : List Char
  number : Numeral 10
  tail : List Char
  blank : ∀ c ∈ pad, isWhite c = true
  fits : number.value < 2 ^ 64
  closed : Closes tail

/-- The names of the three huge-page values. -/
def hugeNames : List (List Char) := ["AnonHugePages".toList, "Private_Hugetlb".toList, "Shared_Hugetlb".toList]

/-- A field line: `Name: value kB`, or one of another form, `VmFlags: rd wr` among them. -/
inductive Field where
  | kb (name : Name) (value : KbValue)
  | other (name : Name) (rest : List Char) (plain : name.text ∉ hugeNames)

/-- One entry of the text. -/
structure Entry (w : Width) where
  header : Header w
  fields : List Field

namespace Entry

variable {w : Width}

def lo (e : Entry w) : Nat := e.header.loText.value

def hi (e : Entry w) : Nat := e.header.hiText.value

/-- The entry's range contains the address. -/
def contains (e : Entry w) (a : Nat) : Bool := decide (e.lo ≤ a ∧ a < e.hi)

/-- The entry's range meets `[base, base + len)`. -/
def intersects (e : Entry w) (base len : Nat) : Bool := decide (e.lo < base + len ∧ base < e.hi)

end Entry

def Header.line {w : Width} (h : Header w) : List Char := h.loText.digits ++ '-' :: (h.hiText.digits ++ h.tail)

def KbValue.text (v : KbValue) : List Char := v.pad ++ (v.number.digits ++ v.tail)

/-- What stands behind the colon. -/
def Field.rest : Field → List Char
  | .kb _ value => value.text
  | .other _ rest _ => rest

def Field.name : Field → Name
  | .kb name _ | .other name _ _ => name

def Field.line (f : Field) : List Char := f.name.text ++ ':' :: f.rest

/-- The field is a non-zero huge-page value. -/
def Field.huge : Field → Bool
  | .kb name value => decide (name.text ∈ hugeNames) && decide (0 < value.number.value)
  | .other .. => false

def Entry.lines {w : Width} (e : Entry w) : List (List Char) := e.header.line :: e.fields.map Field.line

/-- Some huge-page value of the entry is non-zero. -/
def Entry.huge {w : Width} (e : Entry w) : Bool := e.fields.any Field.huge

/-- A text that is a sequence of entries with disjoint increasing ranges. -/
structure Smaps (w : Width) where
  text : List Char
  entries : List (Entry w)
  lines_text : lines text = entries.flatMap Entry.lines
  increasing : entries.Pairwise (fun e e' => e.hi ≤ e'.lo)

/-- The mapping `[base, base + len)` is not empty and the entries cover it. -/
structure Smaps.Covers {w : Width} (s : Smaps w) (base len : Nat) : Prop where
  pos : 0 < len
  covered : ∀ a, base ≤ a → a < base + len → ∃ e ∈ s.entries, e.contains a

/-! ## Lines -/

section

variable {w : Width}

/-- A line whose first word has a colon is no header: the colon is on one side of the dash, and that side is no number. -/
theorem parseSmapsRange_colon {line token : List Char} (ht : firstToken line = some token) (hc : ':' ∈ token) :
    parseSmapsRange w line = none := by
  have hcolon : toDigit 16 ':' = none := by decide
  unfold parseSmapsRange
  rw [ht]
  simp only [Option.bind_eq_bind, Option.bind_some]
  cases hsplit : splitOnce '-' token with
  | none => rfl
  | some p =>
    rw [splitOnce_eq_some hsplit, List.mem_append, List.mem_cons] at hc
    rw [Option.bind_some]
    rcases hc with hlo | hdash | hhi
    · rw [fromStrRadix_eq_none hlo hcolon (by decide)]
      rfl
    · exact absurd hdash (by decide)
    · rw [fromStrRadix_eq_none hhi hcolon (by decide)]
      cases fromStrRadix w.bits 16 p.1 <;> rfl

/-- A line that starts with a bare word and a colon is no header. -/
theorem parseSmapsRange_bare {name rest : List Char} (h : ∀ c ∈ name, isWhite c = false) :
    parseSmapsRange w (name ++ ':' :: rest) = none := by
  have hword : ∀ c ∈ name ++ [':'], isWhite c = false := by
    intro c hc
    rcases List.mem_append.1 hc with hc | hc
    · exact h c hc
    · rw [List.mem_singleton.1 hc]
      decide
  have htok : firstToken (name ++ [':'] ++ rest) = _ := firstToken_append (by simp) hword
  rw [List.append_assoc, List.singleton_append] at htok
  exact parseSmapsRange_colon htok (by simp)

/-- **No field line is taken for a header.** -/
theorem parseSmapsRange_field (f : Field) : parseSmapsRange w f.line = none :=
  parseSmapsRange_bare (fun c hc => (f.name.bare c hc).1)

/-- **A header line is read to its range.** -/
theorem parseSmapsRange_header (h : Header w) : parseSmapsRange w h.line = some (h.loText.value, h.hiText.value) := by
  have hword : ∀ c ∈ h.loText.digits ++ '-' :: h.hiText.digits, isWhite c = false := by
    intro c hc
    rw [List.mem_append, List.mem_cons] at hc
    rcases hc with hc | rfl | hc
    · exact h.loText.isWhite_eq_false c hc
    · decide
    · exact h.hiText.isWhite_eq_false c hc
  have htok : firstToken (h.loText.digits ++ '-' :: h.hiText.digits ++ h.tail) = _ :=
    firstToken_word (by simp) hword h.closed
  rw [List.append_assoc, List.cons_append] at htok
  have hdash : '-' ∉ h.loText.digits := h.loText.not_mem (by decide)
  have hlo : fromStrRadix w.bits 16 h.loText.digits = some h.loText.value := by
    rw [fromStrRadix_numeral (by decide), tryFrom_of_lt (Nat.lt_trans h.ordered h.fits)]
  have hhi : fromStrRadix w.bits 16 h.hiText.digits = some h.hiText.value := by
    rw [fromStrRadix_numeral (by decide), tryFrom_of_lt h.fits]
  unfold parseSmapsRange Header.line
  rw [htok]
  simp only [Option.bind_eq_bind, Option.bind_some, splitOnce_append hdash, hlo, hhi]
  rfl

theorem hugePrefixes_eq : hugePrefixes = hugeNames.map (· ++ [':']) := by decide

theorem bare_of_all {cs : List Char} (h : cs.all (fun c => !isWhite c && c != ':') = true) :
    ∀ c ∈ cs, isWhite c = false ∧ c ≠ ':' := by
  intro c hc
  simpa using List.all_eq_true.1 h c hc

theorem hugeNames_all : ∀ name ∈ hugeNames, name.all (fun c => !isWhite c && c != ':') = true := by decide

theorem hugeNames_bare {name : List Char} (h : name ∈ hugeNames) : ':' ∉ name ∧ ∀ c ∈ name, isWhite c = false := by
  have hbare := bare_of_all (hugeNames_all name h)
  exact ⟨fun hc => (hbare _ hc).2 rfl, fun c hc => (hbare c hc).1⟩

theorem parseSmapsKbField_eq_none {line : List Char} {prefixes : List (List Char)}
    (h : ∀ p ∈ prefixes, line.dropPrefix? p = none) : parseSmapsKbField line prefixes = none := by
  induction prefixes with
  | nil => rfl
  | cons p ps ih =>
    rw [parseSmapsKbField, h p (List.mem_cons_self ..)]
    exact ih (fun q hq => h q (List.mem_cons_of_mem _ hq))

/-- A field's value is read exactly when its name is one of the prefixes'. -/
theorem parseSmapsKbField_names {name rest : List Char} {names : List (List Char)} (hname : ':' ∉ name)
    (hnames : ∀ key ∈ names, ':' ∉ key) :
    parseSmapsKbField (name ++ ':' :: rest) (names.map (· ++ [':'])) =
      if name ∈ names then (firstToken rest).bind (fromStrRadix 64 10) else none := by
  induction names with
  | nil => rfl
  | cons key keys ih =>
    rw [List.map_cons, parseSmapsKbField, dropPrefix?_append_sep hname (hnames key (List.mem_cons_self ..))]
    by_cases hkey : name = key
    · rw [if_pos hkey, if_pos (List.mem_cons.2 (Or.inl hkey))]
    · rw [if_neg hkey]
      simp only [ih (fun k hk => hnames k (List.mem_cons_of_mem _ hk)), List.mem_cons, hkey, false_or]

/-- **No header line is taken for a value**: a line with one of the prefixes would be no header. -/
theorem parseSmapsKbField_header (h : Header w) : parseSmapsKbField h.line hugePrefixes = none := by
  have hno : ∀ p ∈ hugePrefixes, h.line.dropPrefix? p = none := by
    intro p hp
    by_contra hsome
    obtain ⟨rest, hrest⟩ := Option.ne_none_iff_exists'.1 hsome
    rw [hugePrefixes_eq] at hp
    obtain ⟨name, hname, rfl⟩ := List.mem_map.1 hp
    obtain ⟨q, hq, hbeq⟩ := List.dropPrefix?_eq_some_iff.1 hrest
    rw [eq_of_beq hbeq, List.append_assoc, List.singleton_append] at hq
    have hrange := parseSmapsRange_header h
    rw [hq, parseSmapsRange_bare (hugeNames_bare hname).2] at hrange
    cases hrange
  exact parseSmapsKbField_eq_none hno

theorem KbValue.read (v : KbValue) : (firstToken v.text).bind (fromStrRadix 64 10) = some v.number.value := by
  unfold KbValue.text
  rw [firstToken_pad v.blank, firstToken_word v.number.ne_nil v.number.isWhite_eq_false v.closed, Option.bind_some,
    fromStrRadix_numeral (by decide), tryFrom_of_lt v.fits]

/-- **A field line counts exactly when it is a non-zero huge-page value.** -/
theorem parseSmapsKbField_field (f : Field) :
    (parseSmapsKbField f.line hugePrefixes).any (fun kb => decide (0 < kb)) = f.huge := by
  have hbare : ':' ∉ f.name.text := fun hc => (f.name.bare _ hc).2 rfl
  unfold Field.line
  rw [hugePrefixes_eq, parseSmapsKbField_names hbare (fun key hkey => (hugeNames_bare hkey).1)]
  cases f with
  | kb name value =>
    simp only [Field.name, Field.rest, Field.huge, value.read]
    by_cases hname : name.text ∈ hugeNames
    · simp [hname]
    · simp [hname]
  | other name rest plain =>
    have hname : (Field.other name rest plain).name.text ∉ hugeNames := plain
    rw [if_neg hname]
    rfl

/-! ## What a round does, and the whole scan -/

variable {base : Nat} {s : Scan}

theorem scanLine_field (f : Field) :
    scanLine w base s f.line =
      .ok { s with foundAnyHugepage := s.foundAnyHugepage || (s.inRange && f.huge) } := by
  obtain ⟨inRange, found, matched⟩ := s
  unfold scanLine
  rw [parseSmapsRange_field, ← parseSmapsKbField_field]
  cases inRange with
  | false => simp
  | true =>
    cases parseSmapsKbField f.line hugePrefixes with
    | none => simp
    | some kb => by_cases hpos : 0 < kb <;> simp [hpos]

/-- The field lines of an entry add their values to the flag, inside the entry that contains the base. -/
theorem scanLines_fields (fields : List Field) (rest : List (Option (List Char))) :
    scanLines w base s ((fields.map Field.line).map some ++ rest) =
      scanLines w base { s with foundAnyHugepage := s.foundAnyHugepage || (s.inRange && fields.any Field.huge) } rest := by
  induction fields generalizing s with
  | nil => simp
  | cons f fs ih =>
    rw [List.map_cons, List.map_cons, List.cons_append, scanLines, scanLine_field]
    simp only
    rw [ih]
    congr 2
    simp only [List.any_cons]
    cases s.inRange <;> simp [Bool.or_assoc]

theorem scanLine_header (h : Header w) :
    scanLine w base s h.line =
      if s.inRange then .error (some s.foundAnyHugepage)
      else if h.loText.value ≤ base ∧ base < h.hiText.value then .ok ⟨true, false, true⟩ else .ok s := by
  unfold scanLine
  rw [parseSmapsRange_header]

/-- Inside the entry of the base, the next header decides, and so does the end of the text. -/
theorem scanLines_decided {found : Bool} (entries : List (Entry w)) :
    scanLines w base ⟨true, found, true⟩ ((entries.flatMap Entry.lines).map some) = some found := by
  cases entries with
  | nil => rfl
  | cons e es =>
    rw [List.flatMap_cons, Entry.lines, List.cons_append, List.map_cons, scanLines, scanLine_header]
    rfl

/-- **The scan answers for the first entry that contains the base.** -/
theorem scanLines_entries (entries : List (Entry w)) :
    scanLines w base ⟨false, false, false⟩ ((entries.flatMap Entry.lines).map some) =
      (entries.find? (·.contains base)).map Entry.huge := by
  induction entries with
  | nil => rfl
  | cons e es ih =>
    rw [List.flatMap_cons, List.map_append, Entry.lines, List.map_cons, List.cons_append, scanLines, scanLine_header]
    by_cases hin : e.header.loText.value ≤ base ∧ base < e.header.hiText.value
    · have hc : e.contains base = true := decide_eq_true hin
      simp only [List.find?_cons, hc, Bool.false_eq_true, if_false, if_pos hin]
      rw [scanLines_fields, scanLines_decided]
      simp [Entry.huge]
    · have hc : e.contains base = false := decide_eq_false hin
      simp only [List.find?_cons, hc, Bool.false_eq_true, if_false, if_neg hin]
      rw [scanLines_fields]
      exact ih

/-- **The report of a text is that of the first entry that contains the base.** -/
theorem isHugepageBacked_eq (m : Smaps w) (base : Nat) :
    isHugepageBacked w true (readLines m.text) base = (m.entries.find? (·.contains base)).map Entry.huge := by
  unfold isHugepageBacked smapsHugepageLookup readLines
  rw [if_pos rfl, Option.bind_some, m.lines_text]
  exact scanLines_entries m.entries

theorem Smaps.eq_of_contains (m : Smaps w) {e e' : Entry w} (he : e ∈ m.entries) (he' : e' ∈ m.entries)
    (h : e.contains base) (h' : e'.contains base) : e = e' := by
  have hapart : m.entries.Pairwise (fun e e' => ¬ (e.contains base ∧ e'.contains base)) := by
    refine m.increasing.imp ?_
    rintro a b hab ⟨ha, hb⟩
    have hahi := (of_decide_eq_true ha).2
    have hblo := (of_decide_eq_true hb).1
    omega
  have hsymm : Std.Symm (fun e e' : Entry w => ¬ (e.contains base ∧ e'.contains base)) :=
    ⟨fun _ _ hab hba => hab hba.symm⟩
  by_contra hne
  exact hapart.forall he he' hne ⟨h, h'⟩

/-- The ranges are disjoint, so the first entry that contains the base is the only one. -/
theorem Smaps.find_eq (m : Smaps w) {e : Entry w} (he : e ∈ m.entries) (h : e.contains base) :
    m.entries.find? (·.contains base) = some e := by
  cases hf : m.entries.find? (·.contains base) with
  | none => exact absurd h (List.find?_eq_none.1 hf e he)
  | some e' =>
    have hc : e'.contains base := (List.find?_eq_some_iff_append.1 hf).1
    rw [m.eq_of_contains he (List.mem_of_find?_eq_some hf) h hc]

/-- What the report says of the mapping as a whole: whether any portion of it is backed by huge pages. -/
def Smaps.Reports (m : Smaps w) (base len : Nat) (answer : Option Bool) : Prop :=
  (answer = some true ↔ ∃ e ∈ m.entries, e.intersects base len ∧ e.huge) ∧
  (answer = some false ↔
    (∃ e ∈ m.entries, e.intersects base len) ∧ ∀ e ∈ m.entries, e.intersects base len → e.huge = false) ∧
  (answer = none ↔ ∀ e ∈ m.entries, e.contains base = false)

/-- The entry of the base meets the mapping. -/
theorem intersects_of_contains {e : Entry w} {len : Nat} (hlen : 0 < len) (h : e.contains base) :
    e.intersects base len := by
  have hin := of_decide_eq_true h
  exact decide_eq_true ⟨by omega, hin.2⟩

/-- The entry of the base speaks for the mapping, unless a later one has huge pages and it has none. -/
theorem Smaps.reports_iff (m : Smaps w) {len : Nat} {e : Entry w} (hlen : 0 < len) (he : e ∈ m.entries)
    (h : e.contains base) :
    m.Reports base len (some e.huge) ↔
      e.huge = true ∨ ∀ e' ∈ m.entries, e'.intersects base len → e'.huge = false := by
  have hmeets := intersects_of_contains hlen h
  have hnone : some e.huge = none ↔ ∀ e ∈ m.entries, e.contains base = false := by
    refine iff_of_false (Option.some_ne_none _) (fun hn => ?_)
    rw [hn e he] at h
    cases h
  unfold Smaps.Reports
  cases hhuge : e.huge with
  | true =>
    rw [hhuge] at hnone
    have htrue : some true = some true ↔ ∃ e ∈ m.entries, e.intersects base len ∧ e.huge :=
      iff_of_true rfl ⟨e, he, hmeets, hhuge⟩
    have hfalse : some true = some false ↔
        (∃ e ∈ m.entries, e.intersects base len) ∧ ∀ e ∈ m.entries, e.intersects base len → e.huge = false := by
      refine iff_of_false (by decide) (fun hf => ?_)
      rw [hf.2 e he hmeets] at hhuge
      cases hhuge
    exact iff_of_true ⟨htrue, hfalse, hnone⟩ (Or.inl rfl)
  | false =>
    rw [hhuge] at hnone
    constructor
    · rintro ⟨-, hfalse, -⟩
      exact Or.inr (hfalse.1 rfl).2
    · rintro (hf | hall)
      · cases hf
      · refine ⟨iff_of_false (by decide) ?_, iff_of_true rfl ⟨⟨e, he, hmeets⟩, hall⟩, hnone⟩
        rintro ⟨e', he', hmeets', hhuge'⟩
        rw [hall e' he' hmeets'] at hhuge'
        cases hhuge'

/-- **The report covers the mapping when the entry of its base has huge pages, or no entry of it has any.**  For every
text of disjoint increasing entries and every mapping they cover, that is the exact condition.  A base in no entry is
reported as unknown, and no field line is taken for a header or a header for a value. -/
theorem hugepage_report (m : Smaps w) :
    (∀ base len, m.Covers base len →
      (m.Reports base len (isHugepageBacked w true (readLines m.text) base) ↔
        (∃ e ∈ m.entries, e.contains base ∧ e.huge) ∨ ∀ e ∈ m.entries, e.intersects base len → e.huge = false)) ∧
    (∀ base, (∀ e ∈ m.entries, e.contains base = false) →
      isHugepageBacked w true (readLines m.text) base = none) ∧
    ∀ e ∈ m.entries,
      parseSmapsRange w e.header.line = some (e.lo, e.hi) ∧ parseSmapsKbField e.header.line hugePrefixes = none ∧
      ∀ f ∈ e.fields, parseSmapsRange w f.line = none := by
  refine ⟨fun base len hcov => ?_, fun base hnone => ?_, fun e _ => ?_⟩
  · obtain ⟨e, he, hc⟩ := hcov.covered base (Nat.le_refl _) (Nat.lt_add_of_pos_right hcov.pos)
    have hown : (∃ e ∈ m.entries, e.contains base ∧ e.huge) ↔ e.huge = true := by
      constructor
      · rintro ⟨e', he', hc', hhuge⟩
        rwa [m.eq_of_contains he he' hc hc']
      · exact fun hhuge => ⟨e, he, hc, hhuge⟩
    rw [isHugepageBacked_eq, m.find_eq he hc, hown]
    exact m.reports_iff hcov.pos he hc
  · rw [isHugepageBacked_eq, List.find?_eq_none.2 (fun e he => by simp [hnone e he])]
    rfl
  · exact ⟨parseSmapsRange_header e.header, parseSmapsKbField_header e.header, fun f _ => parseSmapsRange_field f⟩

end

/-! ## A mapping the kernel has split -/

/-- The text of a private mapping of 4 MiB whose first page is locked: two entries, the second with a huge page. -/
def splitText : List Char :=
  "200000-201000 rw-p 00000000 00:00 0\n".toList ++ "AnonHugePages:         0 kB\n".toList ++
    "VmFlags: rd wr lo\n".toList ++ "201000-600000 rw-p 00000000 00:00 0\n".toList ++
    "AnonHugePages:      2048 kB\n".toList ++ "VmFlags: rd wr\n".toList

theorem split_hex : ∀ cs ∈ ["200000".toList, "201000".toList, "600000".toList],
    cs ≠ [] ∧ cs.all (fun c => (toDigit 16 c).isSome) = true := by decide

theorem split_dec : ∀ cs ∈ ["0".toList, "2048".toList], cs ≠ [] ∧ cs.all (fun c => (toDigit 10 c).isSome) = true := by
  decide

theorem split_names : ∀ cs ∈ ["AnonHugePages".toList, "VmFlags".toList],
    cs.all (fun c => !isWhite c && c != ':') = true := by decide

theorem closes_space (rest : List Char) : Closes (' ' :: rest) := by
  intro c hc
  cases hc
  rfl

theorem isWhite_replicate (n : Nat) : ∀ c ∈ List.replicate n ' ', isWhite c = true := by
  intro c hc
  rw [List.eq_of_mem_replicate hc]
  rfl

def splitStart : Numeral 16 :=
  ⟨"200000".toList, (split_hex _ (.head _)).1, List.all_eq_true.1 (split_hex _ (.head _)).2⟩

def splitPoint : Numeral 16 :=
  ⟨"201000".toList, (split_hex _ (.tail _ (.head _))).1, List.all_eq_true.1 (split_hex _ (.tail _ (.head _))).2⟩

def splitEnd : Numeral 16 :=
  ⟨"600000".toList, (split_hex _ (.tail _ (.tail _ (.head _)))).1,
    List.all_eq_true.1 (split_hex _ (.tail _ (.tail _ (.head _)))).2⟩

def splitNone : Numeral 10 := ⟨"0".toList, (split_dec _ (.head _)).1, List.all_eq_true.1 (split_dec _ (.head _)).2⟩

def splitSome : Numeral 10 :=
  ⟨"2048".toList, (split_dec _ (.tail _ (.head _))).1, List.all_eq_true.1 (split_dec _ (.tail _ (.head _))).2⟩

theorem split_values : splitStart.value = 0x200000 ∧ splitPoint.value = 0x201000 ∧ splitEnd.value = 0x600000 ∧
    splitNone.value = 0 ∧ splitSome.value = 2048 := by decide

theorem split_ordered : splitStart.value < splitPoint.value ∧ splitPoint.value < splitEnd.value := by decide

theorem split_fits : splitPoint.value < 2 ^ Width.w64.bits ∧ splitEnd.value < 2 ^ Width.w64.bits ∧
    splitNone.value < 2 ^ 64 ∧ splitSome.value < 2 ^ 64 := by decide

theorem split_plain : "VmFlags".toList ∉ hugeNames := by decide

def anonHugePages (n : Nat) (number : Numeral 10) (h : number.value < 2 ^ 64) : Field :=
  .kb ⟨"AnonHugePages".toList, bare_of_all (split_names _ (.head _))⟩
    ⟨List.replicate n ' ', number, " kB".toList, isWhite_replicate n, h, closes_space _⟩

def vmFlags (flags : List Char) : Field :=
  .other ⟨"VmFlags".toList, bare_of_all (split_names _ (.tail _ (.head _)))⟩ flags split_plain

def splitLow : Entry .w64 where
  header := ⟨splitStart, splitPoint, " rw-p 00000000 00:00 0".toList, split_ordered.1, split_fits.1, closes_space _⟩
  fields := [anonHugePages 9 splitNone split_fits.2.2.1, vmFlags " rd wr lo".toList]

def splitHigh : Entry .w64 where
  header := ⟨splitPoint, splitEnd, " rw-p 00000000 00:00 0".toList, split_ordered.2, split_fits.2.1, closes_space _⟩
  fields := [anonHugePages 6 splitSome split_fits.2.2.2, vmFlags " rd wr".toList]

theorem splitText_lines : lines splitText = [splitLow, splitHigh].flatMap Entry.lines := by decide +kernel

theorem split_increasing : [splitLow, splitHigh].Pairwise (fun e e' => e.hi ≤ e'.lo) := by decide

def splitSmaps : Smaps .w64 := ⟨splitText, [splitLow, splitHigh], splitText_lines, split_increasing⟩

theorem splitSmaps_covers {base len : Nat} (hpos : 0 < len) (hlo : 0x200000 ≤ base) (hhi : base + len ≤ 0x600000) :
    splitSmaps.Covers base len := by
  refine ⟨hpos, fun a ha hlt => ?_⟩
  obtain ⟨hstart, hpoint, hend, -⟩ := split_values
  by_cases h : a < 0x201000
  · refine ⟨splitLow, List.mem_cons_self .., decide_eq_true ⟨?_, ?_⟩⟩
    · show splitStart.value ≤ a
      omega
    · show a < splitPoint.value
      omega
  · refine ⟨splitHigh, List.mem_cons_of_mem _ (List.mem_cons_self ..), decide_eq_true ⟨?_, ?_⟩⟩
    · show splitPoint.value ≤ a
      omega
    · show a < splitEnd.value
      omega

/-- The report on the part of the mapping behind its locked page. -/
theorem hugepage_report_part :
    splitSmaps.Covers 0x201000 0x3ff000 ∧
    splitSmaps.Reports 0x201000 0x3ff000 (isHugepageBacked .w64 true (readLines splitSmaps.text) 0x201000) := by
  have hcov : splitSmaps.Covers 0x201000 0x3ff000 := splitSmaps_covers (by decide) (by decide) (by decide)
  refine ⟨hcov, ((hugepage_report splitSmaps).1 _ _ hcov).2 (Or.inl ?_)⟩
  exact ⟨splitHigh, List.mem_cons_of_mem _ (List.mem_cons_self ..), by decide, by decide⟩

/-- **A huge page behind the split goes unread**: the report on the whole mapping is `Some(false)`. -/
theorem hugepage_unread :
    splitSmaps.Covers 0x200000 0x400000 ∧ isHugepageBacked .w64 true (readLines splitSmaps.text) 0x200000 = some false ∧
    (∃ e ∈ splitSmaps.entries, e.intersects 0x200000 0x400000 ∧ e.huge) ∧
    ¬ splitSmaps.Reports 0x200000 0x400000 (isHugepageBacked .w64 true (readLines splitSmaps.text) 0x200000) := by
  have hanswer : isHugepageBacked .w64 true (readLines splitSmaps.text) 0x200000 = some false := by decide +kernel
  have hhuge : ∃ e ∈ splitSmaps.entries, e.intersects 0x200000 0x400000 ∧ e.huge :=
    ⟨splitHigh, List.mem_cons_of_mem _ (List.mem_cons_self ..), by decide, by decide⟩
  refine ⟨splitSmaps_covers (by decide) (by decide) (by decide), hanswer, hhuge, fun hrep => ?_⟩
  have htrue := hrep.1.2 hhuge
  rw [hanswer] at htrue
  cases htrue

/-! ## The huge page size -/

section

variable {w : Width}

/-- **The size read is a power of two and a word.** -/
theorem readHugePageSize_pow (meminfo : Option (List Char)) :
    (readHugePageSize w meminfo).isPowerOfTwo ∧ readHugePageSize w meminfo < 2 ^ w.bits := by
  unfold readHugePageSize
  simp only
  generalize meminfo.bind _ = kb
  cases hsize : (kb.bind (fun kb => checkedMul w.bits kb 1024)).filter (fun n => decide n.isPowerOfTwo) with
  | none =>
    refine ⟨⟨21, rfl⟩, ?_⟩
    cases w <;> decide
  | some size =>
    obtain ⟨hmul, hpow⟩ := Option.filter_eq_some_iff.1 hsize
    obtain ⟨n, -, hn⟩ := Option.bind_eq_some_iff.1 hmul
    refine ⟨of_decide_eq_true hpow, ?_⟩
    unfold checkedMul at hn
    split at hn
    · rename_i hfit
      cases hn
      exact hfit
    · cases hn

theorem hugePageSizes_cached {cached : Nat} (h : cached ≠ 0) (texts : List (Option (List Char))) :
    ∀ size ∈ hugePageSizes w cached texts, size = cached := by
  have hcall : ∀ meminfo, hugePageSize w cached meminfo = (cached, cached) := fun _ => if_pos h
  induction texts with
  | nil =>
    intro size hs
    cases hs
  | cons meminfo later ih =>
    intro size hs
    rw [hugePageSizes, hcall] at hs
    rcases List.mem_cons.1 hs with rfl | hs
    · rfl
    · exact ih size hs

/-- **Every huge layout of a run rounds to the same power of two**, whatever the file says later. -/
theorem hugeLayout_runs (texts : List (Option (List Char))) :
    ∃ huge : Nat, huge.isPowerOfTwo ∧ ∀ size ∈ hugePageSizes w 0 texts, ∀ (mapLen : Nat) (extra : MapFlags),
      extra.huge = true → hugeLayout w true size mapLen extra =
        if ceilMul mapLen huge ≤ w.maxLen then .ok (ceilMul mapLen huge, true)
        else .error (.roundedExceeds mapLen huge) := by
  cases texts with
  | nil =>
    refine ⟨1, ⟨0, rfl⟩, fun size hs => ?_⟩
    cases hs
  | cons meminfo later =>
    obtain ⟨hpow, hfit⟩ := readHugePageSize_pow (w := w) meminfo
    have hne : readHugePageSize w meminfo ≠ 0 := Nat.pos_iff_ne_zero.1 (Nat.pos_of_isPowerOfTwo hpow)
    refine ⟨readHugePageSize w meminfo, hpow, fun size hs mapLen extra hx => ?_⟩
    have hsize : size = readHugePageSize w meminfo := by
      rcases List.mem_cons.1 hs with rfl | hs
      · rfl
      · exact hugePageSizes_cached hne later size hs
    rw [hsize]
    exact hugeLayout_eq hx hpow hfit

end

end HugePages
end MmapIo
