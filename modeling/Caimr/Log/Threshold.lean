import Caimr.Log.Record

/-! The threshold of the log. `set_level` stores a level, and `LOG_DEBUG` and `LOG_INFO` are written as if
they compared theirs with it. What they compare it with is always zero, so that a history of the
log is what it should be exactly as long as there is nothing to leave out. -/
namespace Caimr.Log
open Transition

section Doubles
variable {F D : Type} (widen : F → D) (text : D → Bytes) (errnoMsg : Int → CString)

/-! ### Statements -/

namespace Statement

def place : Statement F D → Place
  | logDebug p _ _ | logInfo p _ | logWarn p _ | logError p _ | logFatal p _ => p
  | logDebugF p _ _ | logInfoF p _ | logWarnF p _ | logErrorF p _ | logFatalF p _ => p

def args : Statement F D → Logger.Args
  | logDebug _ func _ | logDebugF _ func _ => .withFunc .debug (some func)
  | logInfo .. | logInfoF .. => .place
  | logWarn .. | logWarnF .. => .withLevel .warn
  | logError .. | logErrorF .. => .withLevel .error
  | logFatal .. | logFatalF .. => .withLevel .fatal

def items : Statement F D → List (Item F D)
  | logDebug _ _ items | logInfo _ items | logWarn _ items | logError _ items | logFatal _ items => items
  | logDebugF _ _ message | logInfoF _ message | logWarnF _ message | logErrorF _ message | logFatalF _ message =>
    [.cString (some (formatted message))]

def level (s : Statement F D) : LogLevel := s.args.level

/-- One of `LOG_DEBUG`, `LOG_DEBUGF`, `LOG_INFO` and `LOG_INFOF`. -/
def isGated : Statement F D → Bool
  | logDebug .. | logInfo .. | logDebugF .. | logInfoF .. => true
  | _ => false

/-- The text of the record that a statement makes when it makes one. -/
def record (s : Statement F D) : Bytes :=
  (s.args.steps errnoMsg s.place ++ (s.items ++ [Item.char newline]).map .insert).foldl
    (LogStream.logged widen text) []

def Sound (s : Statement F D) : Prop := ∀ i ∈ s.items, i.Sound widen text

theorem level_ne (s : Statement F D) : s.args.level ≠ .levelCount := by
  intro h
  cases s <;> cases h

theorem level_of_gated {s : Statement F D} (h : s.isGated = true) : s.level ≠ .fatal := by
  intro hfatal
  cases s with
  | logDebug | logInfo | logDebugF | logInfoF => cases hfatal
  | logWarn | logError | logFatal | logWarnF | logErrorF | logFatalF => cases h

/-- No macro is ever held back. -/
theorem run_eq (s : Statement F D) (g : Logging) :
    s.run widen text errnoMsg g = Logging.log widen text errnoMsg s.place s.args s.items g := by
  cases s <;> rfl

/-- Every statement writes its record. -/
theorem run_spec {s : Statement F D} (hs : s.Sound widen text) (g : Logging) :
    s.run widen text errnoMsg g =
      some {g with written := g.written ++ [s.record widen text errnoMsg], aborted := s.level = .fatal} := by
  obtain ⟨l, hl, hlevel, hheader, hroom⟩ := Logger.construct_spec widen text errnoMsg s.level_ne s.place
  obtain ⟨t, ht, hcontents, hroom'⟩ := LogStream.insertAll_spec hs hroom
  have hend := Logger.destroy_spec widen text (l := {l with stream := t}) hroom'
  rw [run_eq, Logging.log, hl]
  simp only [Option.bind_eq_bind, Option.bind_some, ht, hend]
  rw [record, List.map_append, List.foldl_append, List.foldl_append, ← hheader, ← hcontents, level, ← hlevel]
  rfl

end Statement

/-! ### Histories -/

namespace Logging

/-- The level that is in force after a call. -/
def latest (level : LogLevel) : Act F D → LogLevel
  | .setLevel level => level
  | .statement _ => level

/-- The statements of a history, each with the level that the latest `set_level` before it has set. -/
def statements : LogLevel → List (Act F D) → List (LogLevel × Statement F D)
  | _, [] => []
  | _, .setLevel level :: rest => statements level rest
  | level, .statement s :: rest => (level, s) :: statements level rest

section Stored
variable {widen text errnoMsg}

theorem log_loglevel {p : Place} {args : Logger.Args} {items : List (Item F D)} {g g' : Logging}
    (h : log widen text errnoMsg p args items g = some g') : g'.loglevel = g.loglevel := by
  simp only [log, Option.bind_eq_bind, Option.bind_eq_some_iff] at h
  obtain ⟨l, -, t, -, e, -, h⟩ := h
  cases h
  rfl

theorem step_loglevel {a : Act F D} {g g' : Logging} (h : step widen text errnoMsg g a = some g') :
    g'.loglevel = latest g.loglevel a := by
  unfold step at h
  split at h
  · cases h
  · cases a with
    | setLevel level =>
      cases h
      rfl
    | statement s =>
      dsimp only at h
      rw [Statement.run_eq] at h
      exact log_loglevel h

/-- `cai::loglevel()` has the level in force at any time. -/
theorem exec_loglevel {tr : List (Act F D)} {g g' : Logging} (h : exec (step widen text errnoMsg) g tr = some g') :
    g'.loglevel = tr.foldl latest g.loglevel := by
  refine run_induction (fun tr u => u.loglevel = tr.foldl latest g.loglevel) rfl ?_ h
  intro tr u a v _ hu hv
  rw [step_loglevel hv, hu, List.foldl_append]
  rfl

end Stored

/-- What should be written: the records of the statements that reach the level in force. -/
def expected (tr : List (Act F D)) : List Bytes :=
  ((statements initloglevel tr).filter fun x => x.1 ≤ x.2.level).map fun x => x.2.record widen text errnoMsg

/-- A `set_level`, or one of the four macros with items that are in memory. -/
def Act.Covered : Act F D → Prop
  | .setLevel _ => True
  | .statement s => s.isGated = true ∧ s.Sound widen text

variable {widen text}

/-- What is written: the records of all the statements. -/
theorem run_written {tr : List (Act F D)} (htr : ∀ a ∈ tr, a.Covered widen text) {g : Logging}
    (hg : g.aborted = false) :
    ∃ g', exec (step widen text errnoMsg) g tr = some g' ∧
      g'.written = g.written ++ (statements g.loglevel tr).map fun x => x.2.record widen text errnoMsg := by
  induction tr generalizing g with
  | nil => exact ⟨g, rfl, (List.append_nil _).symm⟩
  | cons a rest ih =>
    have hrest : ∀ a ∈ rest, a.Covered widen text := fun a ha => htr a (List.mem_cons_of_mem _ ha)
    have ha := htr a List.mem_cons_self
    cases a with
    | setLevel level =>
      obtain ⟨g', hg', hwritten⟩ := ih hrest (g := g.setLevel level) hg
      refine ⟨g', exec_cons_some.mpr ⟨g.setLevel level, ?_, hg'⟩, hwritten⟩
      rw [step, if_neg (by rw [hg]; nofun)]
    | statement s =>
      obtain ⟨hgated, hsound⟩ := ha
      obtain ⟨g', hg', hwritten⟩ := ih hrest
        (g := {g with written := g.written ++ [s.record widen text errnoMsg], aborted := s.level = .fatal})
        (decide_eq_false (Statement.level_of_gated hgated))
      refine ⟨g', exec_cons_some.mpr ⟨_, ?_, hg'⟩, ?_⟩
      · rw [step, if_neg (by rw [hg]; nofun)]
        exact Statement.run_spec widen text errnoMsg hsound g
      · rw [hwritten, List.append_assoc]
        rfl

variable (widen text)

/-- **The threshold filters nothing.** In any history of `set_level`, `LOG_DEBUG`, `LOG_DEBUGF`, `LOG_INFO` and
`LOG_INFOF`, what is written is the records of the statements that reach the level in force
exactly if all of them do. -/
theorem filters_iff {tr : List (Act F D)} (htr : ∀ a ∈ tr, a.Covered widen text) :
    (∃ g, exec (step widen text errnoMsg) initial tr = some g ∧ g.written = expected widen text errnoMsg tr) ↔
      ∀ x ∈ statements initloglevel tr, x.1 ≤ x.2.level := by
  obtain ⟨g, hg, hwritten⟩ := run_written errnoMsg htr (g := initial) rfl
  constructor
  · intro ⟨g', hg', hexpected⟩
    cases hg.symm.trans hg'
    have hlength := congrArg List.length (hwritten.symm.trans hexpected)
    rw [expected, List.length_append, List.length_map, List.length_map] at hlength
    have hall := List.length_filter_eq_length_iff.mp ((Nat.zero_add _).symm.trans hlength).symm
    exact fun x hx => of_decide_eq_true (hall x hx)
  · intro hall
    refine ⟨g, hg, ?_⟩
    rw [hwritten, expected, List.filter_eq_self.mpr fun x hx => decide_eq_true (hall x hx)]
    rfl

end Logging

end Doubles

namespace Logging

/-- `LOG_INFOF("hi")`, then `LOG_DEBUG << 1` with the level set to `DEBUG`, then `LOG_INFO` again with the level
set to `TRACE`. -/
def lowered : List (Act Empty Empty) :=
  [.statement (.logInfoF Logger.somewhere [104, 105]), .setLevel .debug,
    .statement (.logDebug Logger.somewhere (.literal [109, 97, 105, 110]) [.integer .int ⟨1, by decide⟩]),
    .setLevel .trace, .statement (.logInfo Logger.somewhere [])]

theorem filters_iff_lowered : ∃ g,
    exec (step id Empty.elim fun _ => .literal []) initial lowered = some g ∧
      g.written = expected id Empty.elim (fun _ => .literal []) lowered := by
  have htr : ∀ a ∈ lowered, a.Covered id Empty.elim := by
    simp [lowered, Act.Covered, Statement.isGated, Statement.Sound, Statement.items, Item.Sound]
  refine (filters_iff id Empty.elim (fun _ => .literal []) htr).mpr ?_
  simp only [lowered, statements, List.forall_mem_cons, List.not_mem_nil, false_imp_iff, implies_true, and_true]
  decide

/-- Below `INFO`, which is in force at the beginning. -/
def debugging : List (Act Empty Empty) := [.statement (.logDebug Logger.somewhere (.literal [109, 97, 105, 110]) [])]

theorem debug_written : ¬ ∀ tr : List (Act Empty Empty), (∀ a ∈ tr, a.Covered id Empty.elim) → ∃ g,
    exec (step id Empty.elim fun _ => .literal []) initial tr = some g ∧
      g.written = expected id Empty.elim (fun _ => .literal []) tr := by
  intro h
  have htr : ∀ a ∈ debugging, a.Covered id Empty.elim := by
    simp [debugging, Act.Covered, Statement.isGated, Statement.Sound, Statement.items]
  obtain ⟨g, hg, hexpected⟩ := h debugging htr
  obtain ⟨g', hg', hwritten⟩ := run_written (fun _ => .literal []) htr (g := initial) rfl
  cases hg.symm.trans hg'
  have hnone : expected id Empty.elim (fun _ => .literal []) debugging = [] := rfl
  rw [hwritten, hnone] at hexpected
  cases hexpected

end Logging

end Caimr.Log
