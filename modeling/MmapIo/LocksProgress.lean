import Mathlib.Logic.Relation
import MmapIo.Locks
/-!
# LocksProgress — the read side never deadlocks

What a thread holds and waits for is read off its program counter and its views (`Local.held`).  In every reachable state the
locks agree with it (`Agrees`), because every step changes what its thread holds exactly as its lock operation says
(`held_advance`).  Who waits for whom then descends in `Act.rank`, so it never runs in a circle (`waitsFor_ahead`), and the end
of a chain of waiting calls is a call that can take a step, or a thread outside any call with a view.
-/
namespace MmapIo
namespace Locks

open Machine

/-! ## What a thread holds -/

/-- The call holds a read guard of the mapping, or is about to drop the one of a view. -/
def Pc.guarding : Pc → Bool
  | .idle | .mapRead _ | .wQueue _ | .wLock _ | .wWork _ | .wChunk _ _ _ | .wCount | .wRelease _ => false
  | _ => true

def Pc.mWriting : Pc → Bool
  | .wWork _ | .wChunk _ _ _ | .wCount | .wRelease _ => true
  | _ => false

def Pc.mWaiting : Pc → Bool
  | .wLock _ => true
  | _ => false

/-- The call is about to queue for the write lock, or waits for it. -/
def Pc.asking : Pc → Bool
  | .wQueue _ | .wLock _ => true
  | _ => false

def Pc.aReading : Pc → Bool
  | .pScan _ _ _ | .walk => true
  | _ => false

def Pc.aWriting : Pc → Bool
  | .aMixed _ _ | .aIncr _ _ | .aScanLock _ _ _ | .aScan _ _ _ | .aDecr | .aPush _ _ | .aReleaseOk _ | .aReleaseErr
  | .dFind _ | .dDecr | .dRelease => true
  | _ => false

def Pc.aWaiting : Pc → Bool
  | .aWriteLock _ _ | .dWriteLock _ => true
  | _ => false

def Pc.shard : Pc → Option (Fin shards)
  | .pInsert _ _ k | .aScan _ _ k => some k
  | .pUndo _ reg | .dropRemove reg => some reg.shard
  | _ => none

/-- Everything a thread holds and is queued for. -/
structure Held where
  mRd : Nat
  mWr : Bool
  mWait : Bool
  aRd : Nat
  aWr : Bool
  aWait : Bool
  shard : Option (Fin shards)
  deriving DecidableEq, Repr

/-- What a thread holds at a program counter, with so many views and perhaps a `MappedSliceMut`. -/
def Pc.held (p : Pc) (views : Nat) (sliceMut : Bool) : Held :=
  ⟨views + p.guarding.toNat, sliceMut || p.mWriting, p.mWaiting, p.aReading.toNat, p.aWriting, p.aWaiting, p.shard⟩

def Local.held (l : Local) : Held := l.pc.held l.views.length l.sliceMut

/-- What a thread holds after one lock operation. -/
def Held.after (h : Held) : Act → Held
  | .work => h
  | .mRead => { h with mRd := h.mRd + 1 }
  | .mUnread => { h with mRd := h.mRd - 1 }
  | .mQueue => { h with mWait := true }
  | .mWrite => { h with mWait := false, mWr := true }
  | .mUnwrite => { h with mWr := false }
  | .aRead => { h with aRd := h.aRd + 1 }
  | .aUnread => { h with aRd := h.aRd - 1 }
  | .aQueue => { h with aWait := true }
  | .aWrite => { h with aWait := false, aWr := true }
  | .aUnwrite => { h with aWr := false }
  | .lock k => { h with shard := some k }
  | .unlock _ => { h with shard := none }

/-- What a thread holds before the operation: it releases only what it has, and queues for nothing twice. -/
def Held.Needs (h : Held) : Act → Prop
  | .work | .mRead | .aRead => True
  | .mUnread => 0 < h.mRd
  | .mQueue => h.mWait = false
  | .mWrite => h.mWait = true
  | .mUnwrite => h.mWr = true
  | .aUnread => 0 < h.aRd
  | .aQueue => h.aWait = false
  | .aWrite => h.aWait = true
  | .aUnwrite => h.aWr = true
  | .lock _ => h.shard = none
  | .unlock k => h.shard = some k

/-- What a thread keeps to itself: a write call is never made with a view, and never holds the lock beside a
`MappedSliceMut`. -/
structure Local.Ok (l : Local) : Prop where
  writing : l.pc.mWriting = true → l.sliceMut = false
  asking : l.pc.asking = true → l.views = []

theorem needs_act {l : Local} {act : Act} (h : l.pc.act = some act) : l.held.Needs act := by
  obtain ⟨pc, views, sliceMut⟩ := l
  cases pc <;> cases h <;> simp [Local.held, Pc.held, Held.Needs, Pc.guarding, Pc.mWaiting, Pc.mWriting, Pc.aReading,
    Pc.aWaiting, Pc.aWriting, Pc.shard]

/-- **A call that got its read guard keeps it**: as a view it returns, or until it drops it. -/
theorem guarded_cases (cfg : Config) (d : Data) (l : Local) (c : ReadCall) :
    (∃ v, guarded cfg d l c = l.returns v) ∨
      ∃ p, guarded cfg d l c = l.goto p ∧ p.held = Pc.unguard.held ∧ p.mWriting = false ∧ p.asking = false := by
  cases c with
  | asSlice | readInto | readBytes =>
    simp only [guarded]
    split <;> exact .inr ⟨_, rfl, rfl, rfl, rfl⟩
  | touchPages =>
    simp only [guarded, touchPc]
    split <;> exact .inr ⟨_, rfl, rfl, rfl, rfl⟩
  | touchPagesRange offset len =>
    simp only [guarded, touchPc]
    split
    · exact .inr ⟨_, rfl, rfl, rfl, rfl⟩
    · split <;> exact .inr ⟨_, rfl, rfl, rfl, rfl⟩
  | atomicView size offset count =>
    simp only [guarded]
    split
    · exact .inr ⟨_, rfl, rfl, rfl, rfl⟩
    · split
      · exact .inl ⟨_, rfl⟩
      · exact .inr ⟨_, rfl, rfl, rfl, rfl⟩
  | chunks chunkSize => exact .inl ⟨_, rfl⟩
  | next r shard => exact .inr ⟨_, rfl, rfl, rfl, rfl⟩
  | flush => exact .inr ⟨_, rfl, rfl, rfl, rfl⟩

/-- **A write call that got the lock keeps it**: as a `MappedSliceMut`, or until it releases it. -/
theorem written_cases (cfg : Config) (len : Nat) (l : Local) (c : WriteCall) :
    (written cfg len l c).2 = { l with pc := .idle, sliceMut := true } ∨
      ∃ p, (written cfg len l c).2 = l.goto p ∧ p.held = Pc.wCount.held ∧ p.asking = false := by
  cases c with
  | updateRegion offset n due =>
    simp only [written]
    split <;> exact .inr ⟨_, rfl, rfl, rfl⟩
  | asSliceMut offset n =>
    simp only [written]
    split
    · exact .inl rfl
    · split
      · exact .inr ⟨_, rfl, rfl, rfl⟩
      · exact .inl rfl
  | chunksMut chunkSize failsAt => exact .inr ⟨_, rfl, rfl, rfl⟩
  | resize newSize leaves => exact .inr ⟨_, rfl, rfl, rfl⟩

/-- **Every step changes what its thread holds exactly as its lock operation says.** -/
theorem held_advance (cfg : Config) (d : Data) {l : Local} (hok : l.Ok) {act : Act} (h : l.pc.act = some act) :
    (advance cfg d l).2.held = l.held.after act := by
  obtain ⟨pc, views, sliceMut⟩ := l
  have hmut := hok.writing
  cases pc <;> cases h
  case guarded c =>
    obtain ⟨v, hv⟩ | ⟨p, hp, hheld, -, -⟩ := guarded_cases cfg d ⟨.guarded c, views, sliceMut⟩ c
    · simp only [advance, hv]
      rfl
    · simp only [advance, hp, Local.held, Local.goto, hheld]
      rfl
  case wWork c =>
    obtain hw | ⟨p, hp, hheld, -⟩ := written_cases cfg d.len ⟨.wWork c, views, sliceMut⟩ c
    · simp only [advance, hw, Local.held]
      rw [show sliceMut = false from hmut rfl]
      rfl
    · simp only [advance, hp, Local.held, Local.goto, hheld]
      rfl
  case wRelease flush =>
    cases hmut rfl
    cases flush <;> rfl
  case wLock c =>
    simp only [advance, Local.held, Local.goto, Pc.held, Held.after, Pc.mWriting, Bool.or_true]
    rfl
  case pUndo w reg => cases w <;> rfl
  case aScan r size k =>
    simp only [advance]
    split
    · rfl
    · split <;> rfl
  case pLoad | pScan | aMixed | dFind | wChunk =>
    simp only [advance]
    split <;> rfl
  all_goals rfl

theorem Local.ok_of_quiet {l : Local} (hw : l.pc.mWriting = false) (ha : l.pc.asking = false) : l.Ok :=
  ⟨fun h => absurd (hw.symm.trans h) (by decide), fun h => absurd (ha.symm.trans h) (by decide)⟩

/-- **Every step keeps a thread in order**, if a `write()` is granted to no thread with a `MappedSliceMut`. -/
theorem ok_advance (cfg : Config) (d : Data) {l : Local} (hok : l.Ok) (hw : l.pc.act = some .mWrite → l.sliceMut = false) :
    (advance cfg d l).2.Ok := by
  obtain ⟨pc, views, sliceMut⟩ := l
  cases pc
  case guarded c =>
    obtain ⟨v, hv⟩ | ⟨p, hp, -, hwr, ha⟩ := guarded_cases cfg d ⟨.guarded c, views, sliceMut⟩ c
    · simp only [advance, hv]
      exact Local.ok_of_quiet rfl rfl
    · simp only [advance, hp]
      exact Local.ok_of_quiet hwr ha
  case wQueue c => exact ⟨fun h => (by cases h), fun _ => hok.asking rfl⟩
  case wLock c => exact ⟨fun _ => hw rfl, fun h => by cases h⟩
  case wWork c =>
    have hmut : sliceMut = false := hok.writing rfl
    obtain hv | ⟨p, hp, -, ha⟩ := written_cases cfg d.len ⟨.wWork c, views, sliceMut⟩ c
    · simp only [advance, hv]
      exact Local.ok_of_quiet rfl rfl
    · simp only [advance, hp]
      exact ⟨fun _ => hmut, fun h => absurd (ha.symm.trans h) (by decide)⟩
  case wChunk chunkSize failsAt offset =>
    have hmut : sliceMut = false := hok.writing rfl
    simp only [advance]
    split <;> exact ⟨fun _ => hmut, fun h => by cases h⟩
  case wCount => exact ⟨fun _ => hok.writing rfl, fun h => by cases h⟩
  case pUndo w reg => cases w <;> exact Local.ok_of_quiet rfl rfl
  case aScan r size k =>
    simp only [advance]
    split
    · exact Local.ok_of_quiet rfl rfl
    · split <;> exact Local.ok_of_quiet rfl rfl
  case pLoad | pScan | aMixed | dFind | wRelease =>
    simp only [advance]
    split <;> exact Local.ok_of_quiet rfl rfl
  all_goals exact Local.ok_of_quiet rfl rfl

theorem held_start_read (cfg : Config) (c : ReadCall) :
    (c.start cfg).held = Pc.idle.held ∧ (c.start cfg).mWriting = false ∧ (c.start cfg).asking = false := by
  cases c with
  | touchPages | chunks | next => exact ⟨rfl, rfl, rfl⟩
  | asSlice | readInto | readBytes | touchPagesRange | atomicView | flush =>
    simp only [ReadCall.start]
    split <;> exact ⟨rfl, rfl, rfl⟩

theorem held_start_write (cfg : Config) (c : WriteCall) :
    (c.start cfg).held = Pc.idle.held ∧ (c.start cfg).mWriting = false := by
  cases c with
  | asSliceMut offset len => exact ⟨rfl, rfl⟩
  | updateRegion | chunksMut | resize =>
    simp only [WriteCall.start]
    split <;> exact ⟨rfl, rfl⟩

/-- The drop of a view goes on with its read guard, and takes no other lock at once. -/
theorem held_drop (v : View) : v.drop.held = Pc.unguard.held ∧ v.drop.mWriting = false ∧ v.drop.asking = false := by
  cases v with
  | plain reg => exact ⟨rfl, rfl, rfl⟩
  | atomic id => cases id <;> exact ⟨rfl, rfl, rfl⟩
  | iterator chunkSize totalLen currentOffset => exact ⟨rfl, rfl, rfl⟩

theorem held_drop_eraseIdx {views : List View} {i : Nat} {v : View} (hv : views[i]? = some v) (sliceMut : Bool) :
    Pc.unguard.held (views.eraseIdx i).length sliceMut = Pc.idle.held views.length sliceMut := by
  obtain ⟨hi, -⟩ := List.getElem?_eq_some_iff.1 hv
  have hlen : (views.eraseIdx i).length + 1 = views.length := List.length_eraseIdx_add_one hi
  rw [← hlen]
  rfl

/-- **Starting a call takes no lock and keeps the thread in order.** -/
theorem start_keeps (cfg : Config) {l l' : Local} {c : Call} (hidle : l.pc = .idle) (h : start cfg l c = some l') :
    l'.held = l.held ∧ l'.Ok := by
  obtain ⟨pc, views, sliceMut⟩ := l
  cases hidle
  cases c with
  | read c =>
    obtain ⟨hheld, hw, ha⟩ := held_start_read cfg c
    have hl : l' = Local.goto ⟨.idle, views, sliceMut⟩ (c.start cfg) := by
      cases c <;> cases h <;> rfl
    subst hl
    exact ⟨by rw [Local.held, Local.goto, hheld]; rfl, Local.ok_of_quiet hw ha⟩
  | next i shard =>
    simp only [start] at h
    split at h
    · split at h
      · cases h
        exact ⟨rfl, Local.ok_of_quiet rfl rfl⟩
      · cases h
        refine ⟨?_, Local.ok_of_quiet rfl rfl⟩
        simp only [Local.held, List.length_set]
        rfl
    · cases h
  | dropView i =>
    obtain ⟨v, hv, rfl⟩ := Option.map_eq_some_iff.1 h
    obtain ⟨hheld, hw, ha⟩ := held_drop v
    exact ⟨by rw [Local.held, hheld]; exact held_drop_eraseIdx hv sliceMut, Local.ok_of_quiet hw ha⟩
  | write c =>
    obtain ⟨hheld, hw⟩ := held_start_write cfg c
    simp only [start] at h
    split at h
    · rename_i hviews
      cases h
      exact ⟨by rw [Local.held, Local.goto, hheld]; rfl, fun h => absurd (hw.symm.trans h) (by decide), fun _ => hviews⟩
    · cases h
  | dropSliceMut =>
    simp only [start] at h
    split at h
    · rename_i hmut
      cases h
      cases hmut
      exact ⟨rfl, fun _ => rfl, fun h => (by cases h)⟩
    · cases h

/-! ## The locks agree with the threads -/

section

variable {T : Type} [DecidableEq T]

structure Agrees (l : LockTable T) (held : T → Held) : Prop where
  m : Keeps Held.mWr Held.mWait Held.mRd l.m held
  a : Keeps Held.aWr Held.aWait Held.aRd l.a held
  shard : Owned Held.shard l.shard held

namespace Agrees

variable {l l' : LockTable T} {held : T → Held} {t : T} {h' : Held}

/-- An operation on the mapping's lock. -/
theorem of_m {m : FairLock T} (h : Agrees l held) (hm : Keeps Held.mWr Held.mWait Held.mRd m (Function.update held t h'))
    (hw : h'.aWr = (held t).aWr) (hq : h'.aWait = (held t).aWait) (hr : h'.aRd = (held t).aRd)
    (hs : h'.shard = (held t).shard) : Agrees { l with m := m } (Function.update held t h') :=
  ⟨hm, h.a.stay hw hq hr, h.shard.stay hs⟩

/-- An operation on the lock of the atomic set. -/
theorem of_a {a : FairLock T} (h : Agrees l held) (ha : Keeps Held.aWr Held.aWait Held.aRd a (Function.update held t h'))
    (hw : h'.mWr = (held t).mWr) (hq : h'.mWait = (held t).mWait) (hr : h'.mRd = (held t).mRd)
    (hs : h'.shard = (held t).shard) : Agrees { l with a := a } (Function.update held t h') :=
  ⟨h.m.stay hw hq hr, ha, h.shard.stay hs⟩

/-- **A lock operation changes what its thread holds, and nothing of the others.** -/
theorem perform (h : Agrees l held) {act : Act} (hn : (held t).Needs act) (hp : l.perform t act = some l') :
    Agrees l' (Function.update held t ((held t).after act)) := by
  cases act with
  | work =>
    cases hp
    exact ⟨h.m.stay rfl rfl rfl, h.a.stay rfl rfl rfl, h.shard.stay rfl⟩
  | mRead =>
    obtain ⟨m, hm, rfl⟩ := Option.map_eq_some_iff.1 hp
    rw [FairLock.readRecursive_eq_some hm]
    exact h.of_m (h.m.gotRead rfl rfl rfl) rfl rfl rfl rfl
  | mUnread =>
    cases hp
    exact h.of_m (h.m.releaseRead rfl rfl (Nat.sub_add_cancel hn)) rfl rfl rfl rfl
  | mQueue =>
    cases hp
    exact h.of_m (h.m.enqueue rfl hn rfl rfl) rfl rfl rfl rfl
  | mWrite =>
    obtain ⟨m, hm, rfl⟩ := Option.map_eq_some_iff.1 hp
    obtain ⟨hfree, rfl⟩ := FairLock.write_eq_some hm
    exact h.of_m (h.m.gotWrite hfree rfl hn rfl rfl) rfl rfl rfl rfl
  | mUnwrite =>
    cases hp
    exact h.of_m (h.m.releaseWrite hn rfl rfl rfl) rfl rfl rfl rfl
  | aRead =>
    obtain ⟨a, ha, rfl⟩ := Option.map_eq_some_iff.1 hp
    rw [FairLock.read_eq_some ha]
    exact h.of_a (h.a.gotRead rfl rfl rfl) rfl rfl rfl rfl
  | aUnread =>
    cases hp
    exact h.of_a (h.a.releaseRead rfl rfl (Nat.sub_add_cancel hn)) rfl rfl rfl rfl
  | aQueue =>
    cases hp
    exact h.of_a (h.a.enqueue rfl hn rfl rfl) rfl rfl rfl rfl
  | aWrite =>
    obtain ⟨a, ha, rfl⟩ := Option.map_eq_some_iff.1 hp
    obtain ⟨hfree, rfl⟩ := FairLock.write_eq_some ha
    exact h.of_a (h.a.gotWrite hfree rfl hn rfl rfl) rfl rfl rfl rfl
  | aUnwrite =>
    cases hp
    exact h.of_a (h.a.releaseWrite hn rfl rfl rfl) rfl rfl rfl rfl
  | lock k =>
    simp only [LockTable.perform] at hp
    split at hp
    · rename_i hfree
      cases hp
      exact ⟨h.m.stay rfl rfl rfl, h.a.stay rfl rfl rfl, h.shard.lock hfree hn rfl⟩
    · cases hp
  | unlock k =>
    cases hp
    exact ⟨h.m.stay rfl rfl rfl, h.a.stay rfl rfl rfl, h.shard.unlock hn rfl⟩

end Agrees

/-! ## The invariant -/

/-- The locks agree with what the threads hold, and every thread is in order. -/
structure Inv (s : State T) : Prop where
  agrees : Agrees s.locks (Local.held ∘ s.threads)
  ok : ∀ t, (s.threads t).Ok

theorem inv_init (len : Nat) : Inv (State.init len : State T) := by
  refine ⟨⟨⟨?_, ?_, ?_⟩, ⟨?_, ?_, ?_⟩, ?_⟩, fun _ => Local.ok_of_quiet rfl rfl⟩
  all_goals simp [Owned, State.init, LockTable.free, FairLock.free, Local.new, Local.held, Pc.held, Pc.guarding, Pc.mWriting,
    Pc.mWaiting, Pc.aReading, Pc.aWriting, Pc.aWaiting, Pc.shard]

theorem ok_update {threads : T → Local} {t : T} {l : Local} (h : ∀ u, (threads u).Ok) (hl : l.Ok) (u : T) :
    (Function.update threads t l u).Ok := by
  by_cases hu : u = t
  · subst hu
    rw [Function.update_self]
    exact hl
  · rw [Function.update_of_ne hu]
    exact h u

theorem inv_start {cfg : Config} {s : State T} {t : T} {c : Call} {l : Local} (h : Inv s)
    (hidle : (s.threads t).pc = .idle) (hl : start cfg (s.threads t) c = some l) :
    Inv { s with threads := Function.update s.threads t l } := by
  obtain ⟨hheld, hok⟩ := start_keeps cfg hidle hl
  refine ⟨?_, ok_update h.ok hok⟩
  rw [comp_update_eq hheld]
  exact h.agrees

/-- A `write()` is granted to no thread that holds a `MappedSliceMut`. -/
theorem sliceMut_of_granted {s : State T} (h : Inv s) {t : T} {l : LockTable T} (hp : s.locks.perform t .mWrite = some l) :
    (s.threads t).sliceMut = false := by
  obtain ⟨m, hm, -⟩ := Option.map_eq_some_iff.1 hp
  obtain ⟨hfree, -⟩ := FairLock.write_eq_some hm
  have hwr : ¬ (s.threads t).held.mWr = true := by
    intro hwr
    have hsome := (h.agrees.m.writer t).2 hwr
    rw [hfree] at hsome
    cases hsome
  simp only [Local.held, Pc.held, Bool.or_eq_true, not_or, Bool.not_eq_true] at hwr
  exact hwr.1

theorem inv_advance {cfg : Config} {s : State T} {t : T} {act : Act} {l : LockTable T} (h : Inv s)
    (hact : (s.threads t).pc.act = some act) (hp : s.locks.perform t act = some l) :
    Inv ⟨(advance cfg s.data (s.threads t)).1, l,
      Function.update s.threads t (advance cfg s.data (s.threads t)).2⟩ := by
  constructor
  · rw [Function.comp_update, held_advance cfg s.data (h.ok t) hact]
    exact h.agrees.perform (needs_act hact) hp
  · apply ok_update h.ok
    apply ok_advance cfg s.data (h.ok t)
    intro hw
    rw [hact] at hw
    cases hw
    exact sliceMut_of_granted h hp

/-- A view that changes hands takes its read guard along. -/
theorem agrees_send {l : LockTable T} {held : T → Held} {t u : T} (h : Agrees l held) (hne : t ≠ u)
    (hpos : 0 < (held t).mRd) :
    Agrees { l with m := { l.m.releaseRead t with readers := u :: (l.m.releaseRead t).readers } }
      (Function.update (Function.update held t { held t with mRd := (held t).mRd - 1 }) u
        { held u with mRd := (held u).mRd + 1 }) := by
  have hgave : Agrees { l with m := l.m.releaseRead t }
      (Function.update held t { held t with mRd := (held t).mRd - 1 }) :=
    h.of_m (h.m.releaseRead rfl rfl (Nat.sub_add_cancel hpos)) rfl rfl rfl rfl
  have hu : Function.update held t { held t with mRd := (held t).mRd - 1 } u = held u :=
    Function.update_of_ne (Ne.symm hne) _ _
  rw [← hu]
  exact hgave.of_m (hgave.m.gotRead rfl rfl rfl) rfl rfl rfl rfl

theorem inv_send {cfg : Config} {s s' : State T} {t u : T} {i : Nat} (h : Inv s) (hs : step cfg s (.send t u i) = some s') :
    Inv s' := by
  simp only [step] at hs
  split at hs
  · rename_i hidle
    obtain ⟨ht, hu, hne⟩ := hidle
    obtain ⟨v, hv, rfl⟩ := Option.map_eq_some_iff.1 hs
    have hlen := List.length_eraseIdx_add_one (List.getElem?_eq_some_iff.1 hv).1
    have hgive : ({ s.threads t with views := (s.threads t).views.eraseIdx i } : Local).held =
        { (s.threads t).held with mRd := (s.threads t).held.mRd - 1 } := by
      simp only [Local.held, Pc.held, ht, ← hlen]
      rfl
    have htake : ({ s.threads u with views := v :: (s.threads u).views } : Local).held =
        { (s.threads u).held with mRd := (s.threads u).held.mRd + 1 } := by
      simp only [Local.held, Pc.held, hu]
      rfl
    refine ⟨?_, ok_update (ok_update h.ok (Local.ok_of_quiet ?_ ?_)) (Local.ok_of_quiet ?_ ?_)⟩
    · rw [Function.comp_update, Function.comp_update, hgive, htake]
      apply agrees_send h.agrees hne
      simp only [Function.comp_apply, Local.held, Pc.held, ← hlen]
      omega
    · rw [ht]
      rfl
    · rw [ht]
      rfl
    · rw [hu]
      rfl
    · rw [hu]
      rfl
  · cases hs

/-- **Every action keeps the locks and the threads in agreement.** -/
theorem inv_step {cfg : Config} (s : State T) (a : Action T) (s' : State T) (h : Inv s) (hs : step cfg s a = some s') :
    Inv s' := by
  cases a with
  | start t c =>
    simp only [step] at hs
    split at hs
    · rename_i hidle
      obtain ⟨l, hl, rfl⟩ := Option.map_eq_some_iff.1 hs
      exact inv_start h hidle hl
    · cases hs
  | advance t =>
    simp only [step] at hs
    split at hs
    · cases hs
    · rename_i act hact
      obtain ⟨l, hl, rfl⟩ := Option.map_eq_some_iff.1 hs
      exact inv_advance h hact hl
  | send t u i => exact inv_send h hs

theorem inv_run {cfg : Config} {len : Nat} {as : List (Action T)} {s : State T}
    (hr : run (step cfg) (State.init len) as = some s) : Inv s :=
  run_invariant Inv inv_step as (State.init len) s (inv_init len) hr

/-! ## Who waits for whom -/

/-- The order in which the locks are waited for; an operation that never waits has rank `0`. -/
def Act.rank : Act → Nat
  | .mRead | .lock _ => 1
  | .aWrite => 2
  | .aRead => 3
  | .mWrite => 4
  | _ => 0

def Pc.rank (p : Pc) : Nat := p.act.elim 0 Act.rank

theorem rank_of_shard {p : Pc} {k : Fin shards} (h : p.shard = some k) : p ≠ .idle ∧ p.rank ≤ 0 := by
  cases p <;> cases h <;> exact ⟨nofun, Nat.le_refl 0⟩

theorem rank_of_mWriting {p : Pc} (h : p.mWriting = true) : p ≠ .idle ∧ p.rank ≤ 0 := by
  cases p <;> cases h <;> exact ⟨nofun, Nat.le_refl 0⟩

theorem rank_of_aReading {p : Pc} (h : p.aReading = true) : p ≠ .idle ∧ p.rank ≤ 0 := by
  cases p <;> cases h <;> exact ⟨nofun, Nat.le_refl 0⟩

/-- Inside the write section of the atomic set a call waits for nothing but a shard. -/
theorem rank_of_aWriting {p : Pc} (h : p.aWriting = true) : p ≠ .idle ∧ p.rank ≤ 1 := by
  cases p <;> cases h <;> exact ⟨nofun, by simp [Pc.rank, Pc.act, Act.rank]⟩

theorem rank_of_aWaiting {p : Pc} (h : p.aWaiting = true) : p ≠ .idle ∧ p.rank ≤ 2 := by
  cases p <;> cases h <;> exact ⟨nofun, Nat.le_refl 2⟩

theorem act_of_rank {p : Pc} (h : 4 ≤ p.rank) : p.act = some .mWrite := by
  unfold Pc.rank at h
  cases hact : p.act with
  | none =>
    rw [hact] at h
    cases h
  | some act =>
    rw [hact] at h
    cases act <;> first | rfl | simp [Act.rank] at h

theorem asking_of_act {p : Pc} (h : p.act = some .mWrite) : p.guarding = false ∧ p.asking = true ∧ p.mWriting = false := by
  cases p <;> cases h
  exact ⟨rfl, rfl, rfl⟩

/-- **An operation waits exactly when some thread holds what it needs.** -/
theorem perform_eq_none {l : LockTable T} {t : T} {act : Act} : l.perform t act = none ↔ ∃ u, l.Blocks act u := by
  cases act with
  | mRead => exact Option.map_eq_none_iff.trans FairLock.readRecursive_eq_none
  | mWrite => exact Option.map_eq_none_iff.trans FairLock.write_eq_none
  | aRead => exact Option.map_eq_none_iff.trans FairLock.read_eq_none
  | aWrite => exact Option.map_eq_none_iff.trans FairLock.write_eq_none
  | lock k =>
    simp only [LockTable.perform, LockTable.Blocks]
    cases l.shard k <;> simp
  | work | mUnread | mQueue | mUnwrite | aUnread | aQueue | aUnwrite | unlock => simp [LockTable.perform, LockTable.Blocks]

section

variable {s : State T} {t u : T} (h : Inv s)
include h

theorem mWriting_of_writer (hmut : (s.threads u).sliceMut = false) (hw : s.locks.m.writer = some u) :
    (s.threads u).pc.mWriting = true := by
  have hwr : (s.threads u).held.mWr = true := (h.agrees.m.writer u).1 hw
  simpa [Local.held, Pc.held, hmut] using hwr

theorem mRd_of_reader (hr : u ∈ s.locks.m.readers) : 0 < (s.threads u).views.length + (s.threads u).pc.guarding.toNat :=
  h.agrees.m.rd_pos_of_mem hr

/-- A thread that waits for the write lock is no reader. -/
theorem act_of_reader (hr : u ∈ s.locks.m.readers) : (s.threads u).pc.act ≠ some .mWrite := by
  intro hact
  obtain ⟨hg, ha, -⟩ := asking_of_act hact
  have hpos := mRd_of_reader h hr
  rw [(h.ok u).asking ha, hg] at hpos
  cases hpos

theorem aReading_of_reader (hr : u ∈ s.locks.a.readers) : (s.threads u).pc.aReading = true := by
  have hpos : 0 < (s.threads u).pc.aReading.toNat := h.agrees.a.rd_pos_of_mem hr
  cases hp : (s.threads u).pc.aReading with
  | true => rfl
  | false =>
    rw [hp] at hpos
    cases hpos

/-- **Who waits is ranked above whom it waits for**, and unless it waits for the write lock that is a call in progress. -/
theorem waitsFor_ahead (hmut : ∀ u, (s.threads u).sliceMut = false) (hw : s.WaitsFor t u) :
    (s.threads u).pc.rank < (s.threads t).pc.rank ∧ ((s.threads t).pc.act ≠ some .mWrite → s.InCall u) := by
  obtain ⟨act, hact, hb⟩ := hw
  have ht : (s.threads t).pc.rank = act.rank := by rw [Pc.rank, hact]; rfl
  rw [ht, hact]
  cases act with
  | mRead =>
    obtain ⟨hcall, hrank⟩ := rank_of_mWriting (mWriting_of_writer h (hmut u) hb)
    exact ⟨Nat.lt_succ_of_le hrank, fun _ => hcall⟩
  | lock k =>
    obtain ⟨hcall, hrank⟩ := rank_of_shard ((h.agrees.shard k u).1 hb)
    exact ⟨Nat.lt_succ_of_le hrank, fun _ => hcall⟩
  | aWrite =>
    rcases hb with hb | hb
    · obtain ⟨hcall, hrank⟩ := rank_of_aWriting ((h.agrees.a.writer u).1 hb)
      exact ⟨Nat.lt_succ_of_le hrank, fun _ => hcall⟩
    · obtain ⟨hcall, hrank⟩ := rank_of_aReading (aReading_of_reader h hb)
      exact ⟨Nat.lt_of_le_of_lt hrank (by decide), fun _ => hcall⟩
  | aRead =>
    rcases hb with hb | hb
    · obtain ⟨hcall, hrank⟩ := rank_of_aWriting ((h.agrees.a.writer u).1 hb)
      exact ⟨Nat.lt_of_le_of_lt hrank (by decide), fun _ => hcall⟩
    · obtain ⟨hcall, hrank⟩ := rank_of_aWaiting (h.agrees.a.wait_of_mem hb)
      exact ⟨Nat.lt_succ_of_le hrank, fun _ => hcall⟩
  | mWrite =>
    refine ⟨?_, fun hnot => absurd rfl hnot⟩
    rcases hb with hb | hb
    · exact Nat.lt_of_le_of_lt (rank_of_mWriting (mWriting_of_writer h (hmut u) hb)).2 (by decide)
    · exact Nat.lt_of_not_le (fun hle => act_of_reader h hb (act_of_rank hle))
  | work | mUnread | mQueue | mUnwrite | aUnread | aQueue | aUnwrite | unlock => cases hb

end

/-- **A call takes its next step, or waits for some thread.** -/
theorem advance_or_waitsFor (cfg : Config) {s : State T} {t : T} (ht : s.InCall t) :
    (step cfg s (.advance t)).isSome = true ∨ ∃ u, s.WaitsFor t u := by
  cases hact : (s.threads t).pc.act with
  | none =>
    refine absurd ?_ ht
    cases hp : (s.threads t).pc <;> rw [hp] at hact <;> cases hact
  | some act =>
    cases hp : s.locks.perform t act with
    | none =>
      obtain ⟨u, hu⟩ := perform_eq_none.1 hp
      exact .inr ⟨u, act, hact, hu⟩
    | some l =>
      left
      simp [step, hact, hp]

/-- **Behind a read-side call in progress there is always a call that can take a step.** -/
theorem exists_advance {cfg : Config} {s : State T} (h : Inv s) (hmut : ∀ u, (s.threads u).sliceMut = false) {t : T}
    (ht : s.InCall t) (hnot : (s.threads t).pc.act ≠ some .mWrite) :
    ∃ u, s.InCall u ∧ (step cfg s (.advance u)).isSome = true := by
  induction hn : (s.threads t).pc.rank using Nat.strong_induction_on generalizing t with
  | h n ih =>
    rcases advance_or_waitsFor cfg ht with hgo | ⟨u, hu⟩
    · exact ⟨t, ht, hgo⟩
    · obtain ⟨hlt, hcall⟩ := waitsFor_ahead h hmut hu
      have hle : (s.threads t).pc.rank < 4 := Nat.lt_of_not_le (fun hle => hnot (act_of_rank hle))
      refine ih _ (hn ▸ hlt) (hcall hnot) ?_ rfl
      intro hact
      rw [Pc.rank, hact] at hlt
      exact absurd (Nat.lt_trans hlt hle) (by decide)

/-- **Nobody waits in a circle.** -/
theorem waitsFor_acyclic {s : State T} (h : Inv s) (hmut : ∀ u, (s.threads u).sliceMut = false) (t : T) :
    ¬ Relation.TransGen s.WaitsFor t t := by
  have hdesc : ∀ {u}, Relation.TransGen s.WaitsFor t u → (s.threads u).pc.rank < (s.threads t).pc.rank := by
    intro u hu
    induction hu with
    | single hw => exact (waitsFor_ahead h hmut hw).1
    | tail _ hw ih => exact Nat.lt_trans (waitsFor_ahead h hmut hw).1 ih
  exact fun hcycle => Nat.lt_irrefl _ (hdesc hcycle)

/-- A write call that waits while no other kind of call is in progress waits for views alone. -/
theorem waitsForViews_of_all {s : State T} (h : Inv s) (hmut : ∀ u, (s.threads u).sliceMut = false)
    (hall : ∀ u, s.InCall u → (s.threads u).pc.act = some .mWrite) {t u : T} (ht : s.InCall t) (hw : s.WaitsFor t u) :
    ¬ s.InCall u ∧ (s.threads u).views ≠ [] := by
  obtain ⟨act, hact, hb⟩ := hw
  rw [hall t ht] at hact
  cases hact
  rcases hb with hb | hb
  · -- no call is past the wait, so nobody holds the write lock
    have hwr := mWriting_of_writer h (hmut u) hb
    have hcall := hall u (rank_of_mWriting hwr).1
    rw [(asking_of_act hcall).2.2] at hwr
    cases hwr
  · have hidle : ¬ s.InCall u := fun hu => act_of_reader h hb (hall u hu)
    refine ⟨hidle, ?_⟩
    intro hnil
    have hpos := mRd_of_reader h hb
    rw [hnil, Classical.not_not.1 hidle] at hpos
    cases hpos

/-- **The read side never deadlocks.** In every reachable state in which no `MappedSliceMut` is held across calls, some call or
drop in progress can take its next step, or all of them wait for the write lock and for nothing but views of threads outside
any call; and nobody waits in a circle. -/
theorem read_side_deadlock_free (cfg : Config) (len : Nat) (as : List (Action T)) (s : State T)
    (hr : run (step cfg) (State.init len) as = some s) (hmut : ∀ t, (s.threads t).sliceMut = false) :
    ((∃ t, s.InCall t ∧ (step cfg s (.advance t)).isSome = true) ∨ ∀ t, s.InCall t → s.WaitsForViews t) ∧
      ∀ t, ¬ Relation.TransGen s.WaitsFor t t := by
  have h := inv_run hr
  refine ⟨?_, waitsFor_acyclic h hmut⟩
  by_cases hread : ∃ t, s.InCall t ∧ (s.threads t).pc.act ≠ some .mWrite
  · obtain ⟨t, ht, hnot⟩ := hread
    exact .inl (exists_advance h hmut ht hnot)
  · have hall : ∀ u, s.InCall u → (s.threads u).pc.act = some .mWrite :=
      fun u hu => Classical.not_not.1 (fun hnot => hread ⟨u, hu, hnot⟩)
    by_cases hgo : ∃ t, s.InCall t ∧ (step cfg s (.advance t)).isSome = true
    · exact .inl hgo
    · right
      intro t ht
      refine ⟨hall t ht, ?_, fun u hu => waitsForViews_of_all h hmut hall ht hu⟩
      rcases advance_or_waitsFor cfg ht with hstep | hwait
      · exact absurd ⟨t, ht, hstep⟩ hgo
      · exact hwait

/-- A thread with an iterator asks for its next item while a writer is queued. -/
def queuedNext : List (Action Bool) :=
  [.start false (.read (.chunks 4)), .advance false, .advance false, .start true (.write (.updateRegion 0 4 false)),
    .advance true, .start false (.next 0 ⟨0, shards_pos⟩)]

theorem read_side_deadlock_free_queued :
    ∃ s, run (step ⟨.w64, 4096, true⟩) (State.init 8) queuedNext = some s ∧ (s.threads true).pc.act = some .mWrite ∧
      (s.threads false).pc.act = some .mRead ∧
      ((∃ t, s.InCall t ∧ (step ⟨.w64, 4096, true⟩ s (.advance t)).isSome = true) ∨ ∀ t, s.InCall t → s.WaitsForViews t) ∧
      ∀ t, ¬ Relation.TransGen s.WaitsFor t t :=
  ⟨_, rfl, rfl, rfl, read_side_deadlock_free ⟨.w64, 4096, true⟩ 8 queuedNext _ rfl (by decide)⟩

end

end Locks
end MmapIo
