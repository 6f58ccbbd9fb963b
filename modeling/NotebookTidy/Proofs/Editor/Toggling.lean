import Mathlib.Algebra.Ring.Parity
import Mathlib.Data.List.DropRight
import NotebookTidy.Proofs.Editor.Serving
import NotebookTidy.Storage.Memory

/-! The settings of a session beside those in its store, in every run in which the store may refuse
at any event. A switch is flipped first and stored then. Where the store refuses, the switch stays
flipped, and the two are apart until one is stored again. -/
namespace NotebookTidy.Editor

namespace Event

/-- The switch that an event flips. -/
def switch? : Event → Option Setting
  | .command (.toggle setting) => some setting
  | _ => none

theorem switchOf {e : Event} {setting : Setting} (flips : e.switch? = some setting) :
    e = .command (.toggle setting) := by
  unfold switch? at flips
  split at flips
  · cases flips
    rfl
  · cases flips

end Event

/-- An event, where it is served, and whether the store refuses meanwhile. -/
structure Moment where
  around : Surroundings
  refuses : Bool
  event : Event

def Moment.stores (m : Moment) : Bool := m.event.switch?.isSome && !m.refuses

/-- The switches that were flipped since all of them were last stored. -/
def unstored (moments : List Moment) : List Setting :=
  (moments.rtakeWhile (!·.stores)).filterMap (·.event.switch?)

theorem unstoredSnoc (moments : List Moment) (m : Moment) : unstored (moments ++ [m]) =
    if m.stores then [] else unstored moments ++ m.event.switch?.toList := by
  rw [unstored, List.rtakeWhile_concat]
  cases m.stores with
  | true => rfl
  | false =>
    simp only [Bool.not_false, if_true, Bool.false_eq_true, if_false, List.filterMap_append]
    rw [unstored]
    cases flipped : m.event.switch? <;> simp [flipped]

/-! Flipping switches -/

theorem settingsExt {s t : Settings} (same : ∀ setting, s.get setting = t.get setting) :
    s = t := by
  cases s
  cases t
  simpa using ⟨same .formatOnRun, same .formatOnSave, same .sortImports⟩

theorem flippedGet (flipped : List Setting) (s : Settings) (setting : Setting) :
    (flipped.foldl Settings.toggle s).get setting ≠ s.get setting ↔
      Odd (flipped.count setting) := by
  induction flipped generalizing s with
  | nil => simp
  | cons first rest ih =>
    rw [List.foldl_cons]
    by_cases here : first = setting
    · subst here
      have turned : (s.toggle first).get first = !s.get first := by
        rw [Settings.toggle, Settings.getSet, if_pos rfl]
      have inner := ih (s.toggle first)
      rw [turned] at inner
      rw [List.count_cons_self, Nat.odd_add_one, ← inner]
      simp
    · have kept : (s.toggle first).get setting = s.get setting := by
        rw [Settings.toggle, Settings.getSet, if_neg here]
      rw [List.count_cons_of_ne here, ← kept, ih]

namespace Session

/-- A session whose store is in order or not. -/
def facing (s : Session) (refuses : Bool) : Session :=
  { s with store := { s.store with broken := refuses } }

def attend (s : Session) (m : Moment) : Session := (s.facing m.refuses).handle m.around m.event

def attendAll (s : Session) (moments : List Moment) : Session := moments.foldl attend s

/-- The settings are those in the store with some switches flipped. -/
structure Apart (s : Session) (flipped : List Setting) : Prop where
  flips : s.settings = flipped.foldl Settings.toggle s.store.held
  differ : ∀ setting, s.settings.get setting ≠ s.store.held.get setting ↔
    Odd (flipped.count setting)
  agree : s.settings = s.store.held ↔ ∀ setting, Even (flipped.count setting)

/-- What one event leaves of the settings and of what the store holds. -/
structure Attended (s : Session) (m : Moment) (after : Session) : Prop where
  idle : m.event.switch? = none →
    after.settings = s.settings ∧ after.store.held = s.store.held
  stored : ∀ setting ∈ m.event.switch?, m.refuses = false →
    after.settings = s.settings.toggle setting ∧ after.store.held = after.settings
  refused : ∀ setting ∈ m.event.switch?, m.refuses = true →
    after.settings = s.settings.toggle setting ∧ after.store.held = s.store.held

theorem apartOf {s : Session} {flipped : List Setting}
    (flips : s.settings = flipped.foldl Settings.toggle s.store.held) : s.Apart flipped := by
  have differ (setting : Setting) : s.settings.get setting ≠ s.store.held.get setting ↔
      Odd (flipped.count setting) := by
    rw [flips]
    exact flippedGet flipped s.store.held setting
  refine ⟨flips, differ, ?_⟩
  simp only [← Nat.not_odd_iff_even, ← differ, not_not]
  constructor
  · intro same setting
    rw [same]
  · exact settingsExt

theorem reloadSwitches (s : Session) (around : Surroundings) (p : Path) :
    (s.reload around p).1.settings = s.settings ∧ (s.reload around p).1.store = s.store := by
  unfold reload
  dsimp only
  split <;> exact ⟨rfl, rfl⟩

theorem answeredSwitches (s : Session) (e : Event) :
    (s.answered e).settings = s.settings ∧ (s.answered e).store = s.store := by
  unfold answered
  split
  · unfold format
    split
    · exact ⟨rfl, rfl⟩
    · split
      · exact ⟨rfl, rfl⟩
      · simp only [Option.elim_none, appliedAll, and_self]
  · exact ⟨rfl, rfl⟩

theorem handleSwitches (s : Session) (around : Surroundings) {e : Event}
    (none : e.switch? = none) :
    (s.handle around e).settings = s.settings ∧ (s.handle around e).store = s.store := by
  rw [handleEvent]
  cases e with
  | activated p =>
    dsimp only
    split
    · exact reloadSwitches (s.activate p) around p
    · exact ⟨rfl, rfl⟩
  | cellScheduled p i => exact s.answeredSwitches _
  | saving p => exact s.answeredSwitches _
  | command c =>
    cases c with
    | toggle setting => cases none
    | reload =>
      dsimp only
      cases s.activePath with
      | none => exact ⟨rfl, rfl⟩
      | some p => exact s.reloadSwitches around p
    | formatCell => exact s.answeredSwitches _
    | formatAllCells => exact s.answeredSwitches _
    | formatText => exact s.answeredSwitches _

theorem toggleSwitches (s : Session) (setting : Setting) :
    (s.toggle setting).1.settings = s.settings.toggle setting ∧
      (s.toggle setting).1.store.held =
        if s.store.broken then s.store.held else s.settings.toggle setting := by
  cases broken : s.store.broken <;> simp [toggle, Settings.Store.save, broken]

theorem attendSwitched (s : Session) {m : Moment} {setting : Setting}
    (flips : m.event.switch? = some setting) :
    (s.attend m).settings = s.settings.toggle setting ∧ (s.attend m).store.held =
      if m.refuses then s.store.held else s.settings.toggle setting := by
  rw [attend, Event.switchOf flips, handleEvent]
  exact (s.facing m.refuses).toggleSwitches setting

theorem attendHandles (s : Session) (m : Moment) : Attended s m (s.attend m) where
  idle none := by
    obtain ⟨settings, store⟩ := (s.facing m.refuses).handleSwitches m.around none
    exact ⟨settings, by rw [attend, store, facing]⟩
  stored setting flips works := by
    obtain ⟨settings, held⟩ := s.attendSwitched flips
    rw [works, if_neg Bool.false_ne_true] at held
    exact ⟨settings, held.trans settings.symm⟩
  refused setting flips fails := by
    obtain ⟨settings, held⟩ := s.attendSwitched flips
    rw [fails, if_pos rfl] at held
    exact ⟨settings, held⟩

theorem attendApart {s : Session} {flipped : List Setting}
    (flips : s.settings = flipped.foldl Settings.toggle s.store.held) (m : Moment) :
    (s.attend m).settings = (if m.stores then [] else flipped ++ m.event.switch?.toList).foldl
      Settings.toggle (s.attend m).store.held := by
  have attended := s.attendHandles m
  unfold Moment.stores
  cases switched : m.event.switch? with
  | none =>
    obtain ⟨settings, held⟩ := attended.idle switched
    simp [settings, held, flips]
  | some setting =>
    cases store : m.refuses with
    | true =>
      obtain ⟨settings, held⟩ := attended.refused setting switched store
      simp [settings, held, flips]
    | false =>
      obtain ⟨-, held⟩ := attended.stored setting switched store
      simp [held]

theorem attendAllApart {s : Session} (agree : s.settings = s.store.held)
    (moments : List Moment) : (s.attendAll moments).settings =
      (unstored moments).foldl Settings.toggle (s.attendAll moments).store.held := by
  induction moments using List.reverseRecOn with
  | nil => exact agree
  | append_singleton before m ih =>
    rw [unstoredSnoc, attendAll, List.foldl_append]
    exact attendApart ih m

theorem startLoads {s : Session} {around : Surroundings}
    (started : (s.start around).2 = .ok ()) :
    (s.start around).1.settings = s.store.held ∧ (s.start around).1.store = s.store := by
  unfold start Settings.Store.load at *
  cases works : s.store.broken with
  | true => simp [works] at started
  | false =>
    simp only [Bool.false_eq_true, if_false]
    split
    · exact reloadSwitches _ around _
    · exact ⟨rfl, rfl⟩

end Session

/-- However the store behaves after a session has been started, its settings are those in the store
but for the switches that were flipped an odd number of times since one was last stored. -/
theorem settingsStored {s : Session} {around : Surroundings}
    (started : (s.start around).2 = .ok ()) (moments : List Moment) :
    ((s.start around).1.attendAll moments).Apart (unstored moments) ∧
      ∀ m, Session.Attended ((s.start around).1.attendAll moments) m
        (((s.start around).1.attendAll moments).attend m) := by
  obtain ⟨settings, store⟩ := Session.startLoads started
  have agree : (s.start around).1.settings = (s.start around).1.store.held := by
    rw [settings, store]
  exact ⟨Session.apartOf (Session.attendAllApart agree moments),
    fun m => Session.attendHandles _ m⟩

def bareAround : Surroundings := ⟨Storage.Memory.empty.storage, fun _ _ => .error .output, .nil⟩

/-- Two switches are stored with the second one; a third one comes back to where it was. -/
def faultyMoments : List Moment :=
  [⟨bareAround, true, .command (.toggle .formatOnRun)⟩,
    ⟨bareAround, false, .command (.toggle .formatOnSave)⟩,
    ⟨bareAround, true, .command (.toggle .sortImports)⟩,
    ⟨bareAround, true, .command (.toggle .formatOnRun)⟩,
    ⟨bareAround, false, .command .formatAllCells⟩,
    ⟨bareAround, true, .command (.toggle .sortImports)⟩]

theorem settingsStoredFaulty :
    unstored faultyMoments = [.sortImports, .formatOnRun, .sortImports] ∧
      ((Session.start {} bareAround).1.attendAll faultyMoments).store.held = ⟨true, true, true⟩ ∧
      ((Session.start {} bareAround).1.attendAll faultyMoments).settings = ⟨false, true, true⟩ := by
  have started : (Session.start {} bareAround).2 = .ok () := rfl
  obtain ⟨apart, -⟩ := settingsStored started faultyMoments
  have held : ((Session.start {} bareAround).1.attendAll faultyMoments).store.held =
      ⟨true, true, true⟩ := by decide
  refine ⟨by decide, held, ?_⟩
  rw [apart.flips, held]
  decide

/-- A switch that is not stored is flipped all the same. -/
theorem refusedSwitchFlips :
    (Session.start {} bareAround).2 = .ok () ∧
      ((Session.start {} bareAround).1.attend
        ⟨bareAround, true, .command (.toggle .formatOnRun)⟩).store.held =
          (Session.start {} bareAround).1.settings ∧
      ((Session.start {} bareAround).1.attend
        ⟨bareAround, true, .command (.toggle .formatOnRun)⟩).settings ≠
          (Session.start {} bareAround).1.settings := by
  exact ⟨rfl, by decide, by decide⟩

end NotebookTidy.Editor
