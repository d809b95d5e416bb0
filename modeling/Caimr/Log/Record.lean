import Caimr.Log.Logger

/-! What a record consists of: the header, the items that were put into the stream and the newline that
`finish` adds, as far as each finds its room. The newline is put in like any other character,
and finds none where exactly one byte is left. -/
namespace Caimr.Log
open Transition

section Doubles
variable {F D : Type} (widen : F → D) (text : D → Bytes)

/-! ### Lengths -/

namespace Item

/-- The length of an item's text, in a stream that has used so many bytes. -/
def size (used : Nat) : Item F D → Nat
  | integer _ v => (Decimal.decimal v.val).length
  | float v => (text (widen v)).length
  | double v => (text v).length
  | char _ => 1
  | pointer str | cString str | unsignedCString str => (charsOrNull str).length
  | string str => str.length
  | fbuffer buf => buf.cur
  | ownBuffer => used
  | gtemplate _ len | append _ len => len.toNat

/-- A number needs 48 bytes, a text one more than it has. -/
def fits (used : Nat) (i : Item F D) : Bool :=
  if i.isNumber then maxNumSize ≤ kbBufferSize - used else i.size widen text used < kbBufferSize - used

variable {widen text}

theorem length_rendering (contents : Bytes) {i : Item F D} (hi : i.Sound widen text) :
    (i.rendering widen text contents).length = i.size widen text contents.length := by
  cases i with
  | fbuffer buf => exact buf.length_contents
  | gtemplate data len | append data len =>
    obtain ⟨-, -, hlen⟩ := hi
    rw [rendering, size, List.length_take]
    omega
  | _ => rfl

theorem kept_iff (contents : Bytes) {i : Item F D} (hi : i.Sound widen text) :
    i.Kept widen text contents ↔ i.fits widen text contents.length = true := by
  unfold Kept fits
  split
  · rw [decide_eq_true_eq]
  · rw [length_rendering contents hi, decide_eq_true_eq]

end Item

namespace LogStream

/-- How many bytes are used after one more step. -/
def fill (used : Nat) : Op F D → Nat
  | .insert i => if i.fits widen text used then used + i.size widen text used else used
  | .reset => 0

variable {widen text}

theorem length_logged (contents : Bytes) {op : Op F D} (hop : op.Sound widen text) :
    (logged widen text contents op).length = fill widen text contents.length op := by
  cases op with
  | reset => rfl
  | insert i =>
    simp only [logged, fill, Item.kept_iff contents hop]
    split
    · rw [List.length_append, Item.length_rendering contents hop]
    · rfl

/-- Lengths alone say how far a stream is filled. -/
theorem length_foldl_logged (contents : Bytes) {ops : List (Op F D)} (hops : ∀ op ∈ ops, op.Sound widen text) :
    (ops.foldl (logged widen text) contents).length = ops.foldl (fill widen text) contents.length := by
  induction ops generalizing contents with
  | nil => rfl
  | cons op rest ih =>
    rw [List.foldl_cons, List.foldl_cons, ih _ fun o ho => hops o (List.mem_cons_of_mem _ ho),
      length_logged contents (hops op List.mem_cons_self)]

theorem insertAll_append (s : LogStream) (a b : List (Item F D)) :
    s.insertAll widen text (a ++ b) = (s.insertAll widen text a).bind fun t => t.insertAll widen text b := by
  rw [insertAll, List.map_append, exec_append]
  rfl

/-- What is put in at once. -/
theorem insertAll_spec {s : LogStream} {items : List (Item F D)} (hitems : ∀ i ∈ items, i.Sound widen text)
    (hroom : s.contents.length < kbBufferSize) :
    ∃ s', s.insertAll widen text items = some s' ∧
      s'.contents = (items.map Op.insert).foldl (logged widen text) s.contents ∧
      s'.contents.length < kbBufferSize := by
  have hops : ∀ op ∈ items.map Op.insert, op.Sound widen text := List.forall_mem_map.mpr hitems
  exact run_spec widen text hops hroom

end LogStream

/-! ### The header -/

/-- A length that wraps around as an `int` is only shorter. -/
theorem SFile.create_size (filename : CString) :
    -2 ^ 31 ≤ (create filename).size ∧ (create filename).size < 2 ^ 31 ∧
      (create filename).size ≤ (create filename).data.memory.length := by
  have hlen : strlen (create filename).data ≤ (create filename).data.memory.length :=
    Nat.le_of_lt (List.idxOf_lt_length_of_mem (create filename).data.terminated)
  have hsize : (create filename).size = ((strlen (create filename).data : Int) + 2 ^ 31) % 2 ^ 32 - 2 ^ 31 := rfl
  omega

/-- The tables have a name for every level, as long as they say. -/
theorem LogLevel.name_sound {level : LogLevel} (h : level ≠ .levelCount) :
    ∃ i : Item F D, level.name = some i ∧ i.Sound widen text := by
  cases level with
  | levelCount => exact absurd rfl h
  | trace | debug | info | warn | error | fatal => exact ⟨_, rfl, by decide, by decide, by decide⟩

namespace Logger
variable (errnoMsg : Int → CString)

/-- What the constructor of `impl` puts in. -/
def header (level : LogLevel) (errno : IntType.int.Value) (p : Place) : List (Item F D) :=
  [.gtemplate p.now.bytes 19] ++
  [.char 32, .gtemplate (SFile.create p.file).data.memory (SFile.create p.file).size, .char 58, .integer .int p.line] ++
  level.name.toList ++
  if errno.val ≠ 0 then
    [.cString (some (errnoMsg errno.val)), .cString (some (.literal [32, 40, 101, 114, 114, 110, 111, 61])),
      .integer .int errno, .cString (some (.literal [41, 32]))]
  else []

namespace Args

def level : Args → LogLevel
  | place => .info
  | withLevel l | withFunc l _ => l

/-- What the constructors put in. -/
def items (p : Place) : Args → List (Item F D)
  | place => header errnoMsg .info noError p
  | withLevel l => header errnoMsg l noError p
  | withFunc l func => header errnoMsg l noError p ++ [.char 123, .cString func, .cString (some (.literal [125, 32]))]

/-- The same, as steps of the stream. -/
def steps (p : Place) (args : Args) : List (LogStream.Op F D) := (args.items errnoMsg p).map .insert

end Args

theorem header_sound {level : LogLevel} (h : level ≠ .levelCount) (errno : IntType.int.Value) (p : Place) :
    ∀ i ∈ header errnoMsg level errno p, i.Sound widen text := by
  obtain ⟨name, hname, hsound⟩ := LogLevel.name_sound widen text h
  have hnow : (19 : Int) ≤ p.now.bytes.length := by
    rw [p.now.length_bytes]
    decide
  have hbase := SFile.create_size p.file
  intro i hi
  simp only [header, hname, Option.toList_some, List.mem_append] at hi
  rcases hi with ((hi | hi) | hi) | hi
  · rw [List.mem_singleton.mp hi]
    exact ⟨by decide, by decide, hnow⟩
  · simp only [List.mem_cons, List.not_mem_nil, or_false] at hi
    rcases hi with rfl | rfl | rfl | rfl
    · trivial
    · exact hbase
    · trivial
    · trivial
  · rw [List.mem_singleton.mp hi]
    exact hsound
  · split at hi
    · simp only [List.mem_cons, List.not_mem_nil, or_false] at hi
      rcases hi with rfl | rfl | rfl | rfl <;> trivial
    · cases hi

theorem impl_eq {level : LogLevel} (h : level ≠ .levelCount) (errno : IntType.int.Value) (p : Place) :
    impl widen text errnoMsg level errno p =
      ((LogStream.create p.memory).insertAll widen text (header errnoMsg level errno p)).map fun s => ⟨s, level⟩ := by
  obtain ⟨name, hname, -⟩ := LogLevel.name_sound widen text h
  rw [header, LogStream.insertAll_append, LogStream.insertAll_append, LogStream.insertAll_append, hname]
  simp only [impl, formatTime, hname, Option.toList_some, Option.bind_eq_bind, Option.bind_some, Option.bind_assoc,
    Function.comp_def, Option.map_eq_bind]
  split
  · rfl
  · rfl

theorem construct_eq {args : Args} (h : args.level ≠ .levelCount) (p : Place) :
    construct widen text errnoMsg p args =
      ((LogStream.create p.memory).insertAll widen text (args.items errnoMsg p)).map fun s => ⟨s, args.level⟩ := by
  cases args with
  | place => exact impl_eq widen text errnoMsg h noError p
  | withLevel l => exact impl_eq widen text errnoMsg h noError p
  | withFunc l func =>
    have himpl := impl_eq widen text errnoMsg (show l ≠ .levelCount from h) noError p
    rw [construct, createFunc, himpl, Args.items, LogStream.insertAll_append]
    simp only [Option.bind_eq_bind, Option.map_eq_bind, Option.bind_assoc, Function.comp_def, Option.bind_some]
    rfl

theorem items_sound {args : Args} (h : args.level ≠ .levelCount) (p : Place) :
    ∀ i ∈ args.items errnoMsg p, i.Sound widen text := by
  cases args with
  | place => exact header_sound widen text errnoMsg h noError p
  | withLevel l => exact header_sound widen text errnoMsg h noError p
  | withFunc l func =>
    intro i hi
    rcases List.mem_append.mp hi with hi | hi
    · exact header_sound widen text errnoMsg h noError p i hi
    · simp only [List.mem_cons, List.not_mem_nil, or_false] at hi
      rcases hi with rfl | rfl | rfl <;> trivial

theorem steps_sound {args : Args} (h : args.level ≠ .levelCount) (p : Place) :
    ∀ op ∈ args.steps errnoMsg p, op.Sound widen text :=
  List.forall_mem_map.mpr (items_sound widen text errnoMsg h p)

/-- Every constructor returns, with the header in the stream. -/
theorem construct_spec {args : Args} (h : args.level ≠ .levelCount) (p : Place) :
    ∃ l, construct widen text errnoMsg p args = some l ∧ l.level = args.level ∧
      l.stream.contents = (args.steps errnoMsg p).foldl (LogStream.logged widen text) [] ∧
      l.stream.contents.length < kbBufferSize := by
  have hempty : (LogStream.create p.memory).contents = [] := rfl
  have hroom : (LogStream.create p.memory).contents.length < kbBufferSize := by
    rw [hempty]
    decide
  obtain ⟨s, hs, hcontents, hroom'⟩ := LogStream.insertAll_spec (items_sound widen text errnoMsg h p) hroom
  rw [hempty] at hcontents
  refine ⟨⟨s, args.level⟩, ?_, rfl, hcontents, hroom'⟩
  rw [construct_eq widen text errnoMsg h, hs]
  rfl

/-! ### The end -/

/-- The newline is there if it found room. -/
theorem destroy_spec {l : Logger} (hroom : l.stream.contents.length < kbBufferSize) :
    l.destroy widen text =
      some ⟨LogStream.logged widen text l.stream.contents (.insert (.char newline)), l.level = .fatal⟩ := by
  have hsound : ∀ i ∈ [(.char newline : Item F D)], i.Sound widen text := by
    intro i hi
    rw [List.mem_singleton.mp hi]
    trivial
  obtain ⟨s, hs, hcontents, -⟩ := LogStream.insertAll_spec hsound hroom
  have hmsg : s.buffer.data.load 0 (toSize s.buffer.used) = some s.contents := s.buffer.toString_spec (by decide)
  simp only [destroy, finish, hs, Option.bind_eq_bind, Option.pure_def, Option.bind_some, hmsg, hcontents]
  rfl

/-- It does not where all but one byte is used. -/
theorem logged_newline {contents : Bytes} (hroom : contents.length < kbBufferSize) :
    LogStream.logged widen text contents (.insert (.char newline)) = contents ++ [newline] ↔ contents.length ≠ 1023 := by
  have hkb : kbBufferSize = 1024 := rfl
  have hkept : Item.Kept widen text contents (.char newline) ↔ contents.length ≠ 1023 := by
    show 1 < kbBufferSize - contents.length ↔ _
    omega
  rw [LogStream.logged]
  split
  · rename_i h
    exact ⟨fun _ => hkept.mp h, fun _ => rfl⟩
  · rename_i h
    exact ⟨fun he => absurd (congrArg List.length he) (by simp), fun hne => absurd (hkept.mpr hne) h⟩

/-! ### Whole records -/

/-- **A record is a terminated line, but for one length.** Whatever is put into the stream of a logger, and
wherever it stands, everything in the stream goes to `g_output` when the logger is destroyed. The
newline of `finish` is behind it exactly if the header and the items, as far as each finds its
room, do not take all but one byte. -/
theorem terminated_iff (p : Place) {args : Args} (hlevel : args.level ≠ .levelCount)
    {ops : List (LogStream.Op F D)} (hops : ∀ op ∈ ops, op.Sound widen text) :
    ∃ l s e, construct widen text errnoMsg p args = some l ∧
      exec (LogStream.step widen text) l.stream ops = some s ∧
      destroy widen text {l with stream := s} = some e ∧
      (e.text = s.contents ++ [newline] ↔
        (args.steps errnoMsg p ++ ops).foldl (LogStream.fill widen text) 0 ≠ 1023) := by
  obtain ⟨l, hl, -, hheader, hroom⟩ := construct_spec widen text errnoMsg hlevel p
  obtain ⟨s, hs, hcontents, hroom'⟩ := LogStream.run_spec widen text hops hroom
  have hsteps : ∀ op ∈ args.steps errnoMsg p, op.Sound widen text := steps_sound widen text errnoMsg hlevel p
  have hlength : s.contents.length = (args.steps errnoMsg p ++ ops).foldl (LogStream.fill widen text) 0 := by
    rw [hcontents, LogStream.length_foldl_logged _ hops, hheader, LogStream.length_foldl_logged _ hsteps,
      List.foldl_append]
    rfl
  refine ⟨l, s, _, hl, hs, destroy_spec widen text (l := {l with stream := s}) hroom', ?_⟩
  rw [← hlength]
  exact logged_newline widen text hroom'

end Logger

end Doubles

namespace Logger

/-- Line 7 of `src/main.cpp`, at the beginning of a year. -/
def somewhere : Place where
  memory := ⟨List.replicate kbBufferSize 0, List.length_replicate⟩
  now := ⟨[50, 48, 50, 53, 45, 48, 49, 45, 48, 49, 32, 48, 48, 58, 48, 48, 58, 48, 48] ++ List.replicate 45 0, rfl⟩
  file := .literal [115, 114, 99, 47, 109, 97, 105, 110, 46, 99, 112, 112]
  line := ⟨7, by decide⟩

/-- `LOG_INFO << "LOG_INFO: num=" << 2`, where there are no `double`s. -/
theorem terminated_iff_num : ∃ l s e,
    construct (id : Empty → Empty) Empty.elim (fun _ => .literal []) somewhere .place = some l ∧
    exec (LogStream.step id Empty.elim) l.stream
      [.insert (.cString (some (.literal [76, 79, 71, 95, 73, 78, 70, 79, 58, 32, 110, 117, 109, 61]))),
        .insert (.integer .int ⟨2, by decide⟩)] = some s ∧
    destroy (id : Empty → Empty) Empty.elim {l with stream := s} = some e ∧ e.text = s.contents ++ [newline] := by
  have hops : ∀ op ∈ ([.insert (.cString (some (.literal [76, 79, 71, 95, 73, 78, 70, 79, 58, 32, 110, 117, 109, 61]))),
      .insert (.integer .int ⟨2, by decide⟩)] : List (LogStream.Op Empty Empty)), op.Sound id Empty.elim := by
    simp [LogStream.Op.Sound, Item.Sound]
  have hlevel : Args.place.level ≠ .levelCount := by decide
  obtain ⟨l, s, e, hl, hs, he, hiff⟩ := terminated_iff id Empty.elim (fun _ => .literal []) somewhere hlevel hops
  exact ⟨l, s, e, hl, hs, he, hiff.mpr (by decide +kernel)⟩

/-- 985 characters, behind a header of 38. -/
def filling : List (LogStream.Op Empty Empty) := [.insert (.string (List.replicate 985 120))]

/-- There is no room for the newline then. -/
theorem newline_missing : ¬ ∀ (p : Place) (args : Args) (ops : List (LogStream.Op Empty Empty)) (l : Logger)
    (s : LogStream) (e : Ending), args.level ≠ .levelCount → (∀ op ∈ ops, op.Sound id Empty.elim) →
    construct (id : Empty → Empty) Empty.elim (fun _ => .literal []) p args = some l →
    exec (LogStream.step id Empty.elim) l.stream ops = some s →
    destroy (id : Empty → Empty) Empty.elim {l with stream := s} = some e → e.text.getLast? = some newline := by
  intro h
  have hops : ∀ op ∈ filling, op.Sound id Empty.elim := by
    intro op hop
    rw [List.mem_singleton.mp hop]
    trivial
  have hlevel : Args.place.level ≠ .levelCount := by decide
  obtain ⟨l, hl, -, hheader, hroom⟩ := construct_spec id Empty.elim (fun _ => .literal []) hlevel somewhere
  obtain ⟨s, hs, hcontents, hroom'⟩ := LogStream.run_spec id Empty.elim hops hroom
  have hlast : (LogStream.logged id Empty.elim s.contents (.insert (.char newline))).getLast? = some newline :=
    h somewhere .place filling l s _ hlevel hops hl hs (destroy_spec id Empty.elim hroom')
  rw [hcontents, hheader] at hlast
  have hnone : (LogStream.logged id Empty.elim (filling.foldl (LogStream.logged id Empty.elim)
      ((Args.steps (fun _ => .literal []) somewhere .place).foldl (LogStream.logged id Empty.elim) []))
      (.insert (.char newline))).getLast? ≠ some newline := by
    decide +kernel
  exact hnone hlast

end Logger

end Caimr.Log
