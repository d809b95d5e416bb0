import Caimr.Log.StreamContents

/-! `log/logging.h` and `log/logging.cpp`. A logger is a stream with a header already in it, which
ends in a newline and is handed to `g_output` when the logger is destroyed. The macros construct
loggers, some of them behind a comparison of levels, and put into them what is logged. -/
namespace Caimr.Log
open Transition

/-! ### Levels -/

/-- `logger::loglevel`. -/
inductive LogLevel where
  | trace
  | debug
  | info
  | warn
  | error
  | fatal
  | levelCount
deriving DecidableEq, Repr

namespace LogLevel

/-- The value of an enumerator. -/
def toNat : LogLevel → Nat
  | trace => 0
  | debug => 1
  | info => 2
  | warn => 3
  | error => 4
  | fatal => 5
  | levelCount => 6

instance : LE LogLevel := ⟨fun a b => a.toNat ≤ b.toNat⟩
instance (a b : LogLevel) : Decidable (a ≤ b) := inferInstanceAs (Decidable (a.toNat ≤ b.toNat))

/-- `level_name`: `" [TRACE] "` to `" [FATAL] "`. -/
def names : List Bytes :=
  [[32, 91, 84, 82, 65, 67, 69, 93, 32], [32, 91, 68, 69, 66, 85, 71, 93, 32], [32, 91, 73, 78, 70, 79, 93, 32],
    [32, 91, 87, 65, 82, 78, 93, 32], [32, 91, 69, 82, 82, 79, 82, 93, 32], [32, 91, 70, 65, 84, 65, 76, 93, 32]]

/-- `level_name_len`. -/
def nameLens : List Int := [9, 9, 8, 8, 9, 9]

/-- `gtemplate(level_name[level], level_name_len[level])`; the tables end before `LEVEL_COUNT`. -/
def name {F D : Type} (level : LogLevel) : Option (Item F D) := do
  let data ← names[level.toNat]?
  let len ← nameLens[level.toNat]?
  return .gtemplate data len

end LogLevel

/-! ### File names -/

/-- The place of the last `c`. -/
def lastIndex (c : UInt8) : Bytes → Option Nat
  | [] => none
  | x :: rest =>
    match lastIndex c rest with
    | some i => some (i + 1)
    | none => if x = c then some 0 else none

theorem lastIndex_lt {c : UInt8} {str : Bytes} {i : Nat} (h : lastIndex c str = some i) : i < str.length := by
  induction str generalizing i with
  | nil => cases h
  | cons x rest ih =>
    rw [lastIndex] at h
    split at h
    · rename_i k hk
      cases h
      exact Nat.succ_lt_succ (ih hk)
    · split at h
      · cases h
        exact Nat.succ_pos _
      · cases h

namespace CString

/-- A string literal. -/
def literal (chars : Bytes) : CString := ⟨chars ++ [0], List.mem_append_right _ List.mem_cons_self⟩

/-- `strrchr`, as an index. -/
def strrchr (str : CString) (c : UInt8) : Option Nat := lastIndex c str.chars

/-- The string from a place inside it on. -/
def advance (str : CString) (n : Nat) (h : n ≤ strlen str) : CString := by
  refine ⟨str.memory.drop n, List.mem_of_getElem? (i := strlen str - n) ?_⟩
  have hlt : strlen str < str.memory.length := List.idxOf_lt_length_of_mem str.terminated
  rw [List.getElem?_drop, Nat.add_sub_cancel' h, List.getElem?_eq_getElem hlt]
  exact congrArg some (List.getElem_idxOf hlt)

theorem strrchr_lt {str : CString} {c : UInt8} {i : Nat} (h : str.strrchr c = some i) : i + 1 ≤ strlen str := by
  have hlt := lastIndex_lt h
  rw [chars, List.length_take] at hlt
  omega

end CString

structure SFile where
  data : CString
  size : Int

namespace SFile

/-- What is behind the last slash; `size_` is an `int`. -/
def create (filename : CString) : SFile :=
  let data := match h : filename.strrchr 47 with
    | some slash => filename.advance (slash + 1) (CString.strrchr_lt h)
    | none => filename
  ⟨data, IntType.int.cast (strlen data)⟩

end SFile

/-! ### One logger -/

/-- Where a logger is constructed: the memory it finds, what `strftime` has left in the buffer of
`to_cstring`, and the arguments `file` and `line`. -/
structure Place where
  memory : CharArray kbBufferSize
  now : CharArray 64
  file : CString
  line : IntType.int.Value

structure Logger where
  stream : LogStream
  level : LogLevel

/-- What a logger does in the end: the text goes to `g_output`, and then the program may be aborted. -/
structure Ending where
  text : Bytes
  aborts : Bool
deriving DecidableEq, Repr

/-- `'\n'`. -/
def newline : UInt8 := 10

section Doubles
variable {F D : Type} (widen : F → D) (text : D → Bytes) (errnoMsg : Int → CString)

/-- `stream << i₁ << … << iₙ`. -/
def LogStream.insertAll (s : LogStream) (items : List (Item F D)) : Option LogStream :=
  exec (step widen text) s (items.map .insert)

namespace Logger

/-- `impl::format_time`. -/
def formatTime (s : LogStream) (now : CharArray 64) : Option LogStream :=
  s.insertAll widen text [.gtemplate now.bytes 19]

/-- The constructor of `impl`. -/
def impl (level : LogLevel) (errno : IntType.int.Value) (p : Place) : Option Logger := do
  let basename := SFile.create p.file
  let stream ← formatTime widen text (.create p.memory) p.now
  let stream ← stream.insertAll widen text
    [.char 32, .gtemplate basename.data.memory basename.size, .char 58, .integer .int p.line]
  let name ← level.name
  let stream ← stream.insertAll widen text [name]
  let stream ← if errno.val ≠ 0 then
      -- " (errno=" and ") "
      stream.insertAll widen text
        [.cString (some (errnoMsg errno.val)), .cString (some (.literal [32, 40, 101, 114, 114, 110, 111, 61])),
          .integer .int errno, .cString (some (.literal [41, 32]))]
    else some stream
  return ⟨stream, level⟩

/-- `0` as an `int`. -/
def noError : IntType.int.Value := ⟨0, by decide⟩

/-- `logger(file, line)`. -/
def create (p : Place) : Option Logger := impl widen text errnoMsg .info noError p

/-- `logger(file, line, level)`. -/
def createLevel (p : Place) (level : LogLevel) : Option Logger := impl widen text errnoMsg level noError p

/-- `logger(file, line, level, func)`. -/
def createFunc (p : Place) (level : LogLevel) (func : Option CString) : Option Logger := do
  let l ← impl widen text errnoMsg level noError p
  let stream ← l.stream.insertAll widen text [.char 123, .cString func, .cString (some (.literal [125, 32]))]
  return {l with stream := stream}

/-- The arguments behind `file` and `line`. -/
inductive Args where
  | place
  | withLevel (level : LogLevel)
  | withFunc (level : LogLevel) (func : Option CString)

def construct (p : Place) : Args → Option Logger
  | .place => create widen text errnoMsg p
  | .withLevel level => createLevel widen text errnoMsg p level
  | .withFunc level func => createFunc widen text errnoMsg p level func

/-- `impl::finish`. -/
def finish (l : Logger) : Option Logger := do
  let stream ← l.stream.insertAll widen text [.char newline]
  return {l with stream := stream}

/-- `~logger`. -/
def destroy (l : Logger) : Option Ending := do
  let l ← l.finish widen text
  let msg ← l.stream.buffer.data.load 0 (toSize l.stream.buffer.used)
  return ⟨msg, l.level = .fatal⟩

end Logger

/-! ### Logging -/

/-- The globals of `logging.cpp`, and what has been done with them. -/
structure Logging where
  gLoglevel : LogLevel
  /-- What `g_output` has been given. -/
  written : List Bytes
  aborted : Bool
deriving DecidableEq, Repr

namespace Logging

def initloglevel : LogLevel := .info

def initial : Logging := ⟨initloglevel, [], false⟩

/-- `cai::loglevel()`. -/
def loglevel (g : Logging) : LogLevel := g.gLoglevel

def setLevel (g : Logging) (level : LogLevel) : Logging := {g with gLoglevel := level}

/-- A logger is constructed, gets the items and is destroyed at the end of the statement. -/
def log (p : Place) (args : Logger.Args) (items : List (Item F D)) (g : Logging) : Option Logging := do
  let l ← Logger.construct widen text errnoMsg p args
  let stream ← l.stream.insertAll widen text items
  let e ← {l with stream := stream}.destroy widen text
  return {g with written := g.written ++ [e.text], aborted := e.aborts}

end Logging

/-! ### The macros -/

/-- `cai::logger::loglevel()`. Inside `logger` the name is that of the enumeration, so that this does not
call `cai::loglevel` but is a value of the enumeration, initialized to zero. -/
def Logger.loglevel : LogLevel := .trace

/-- `char buf[1024] = {0}` after `snprintf(buf, 1024, …)`, which would make `message` of its arguments. -/
def formatted (message : Bytes) : CString where
  memory := message.take 1023 ++ List.replicate (1024 - (message.take 1023).length) 0
  terminated := by
    have hlen : (message.take 1023).length ≤ 1023 := List.length_take_le ..
    apply List.mem_append_right
    exact List.mem_replicate.mpr ⟨by omega, rfl⟩

namespace Logging

/-- `if (cai::logger::loglevel() <= level)` in front of a statement. -/
def behind (level : LogLevel) (statement : Logging → Option Logging) (g : Logging) : Option Logging :=
  if Logger.loglevel ≤ level then statement g else some g

/-- `LOG_DEBUG << …`. -/
def logDebug (p : Place) (func : CString) (items : List (Item F D)) : Logging → Option Logging :=
  behind .debug (log widen text errnoMsg p (.withFunc .debug (some func)) items)

/-- `LOG_INFO << …`. -/
def logInfo (p : Place) (items : List (Item F D)) : Logging → Option Logging :=
  behind .info (log widen text errnoMsg p .place items)

/-- `LOG_WARN << …`. -/
def logWarn (p : Place) (items : List (Item F D)) : Logging → Option Logging :=
  log widen text errnoMsg p (.withLevel .warn) items

/-- `LOG_ERROR << …`. -/
def logError (p : Place) (items : List (Item F D)) : Logging → Option Logging :=
  log widen text errnoMsg p (.withLevel .error) items

/-- `LOG_FATAL << …`. -/
def logFatal (p : Place) (items : List (Item F D)) : Logging → Option Logging :=
  log widen text errnoMsg p (.withLevel .fatal) items

/-- `LOG_DEBUGF(…)`. -/
def logDebugF (p : Place) (func : CString) (message : Bytes) : Logging → Option Logging :=
  behind .debug (log widen text errnoMsg p (.withFunc .debug (some func)) [.cString (some (formatted message))])

/-- `LOG_INFOF(…)`. -/
def logInfoF (p : Place) (message : Bytes) : Logging → Option Logging :=
  logInfo widen text errnoMsg p [.cString (some (formatted message))]

/-- `LOG_WARNF(…)`. -/
def logWarnF (p : Place) (message : Bytes) : Logging → Option Logging :=
  logWarn widen text errnoMsg p [.cString (some (formatted message))]

/-- `LOG_ERRORF(…)`. -/
def logErrorF (p : Place) (message : Bytes) : Logging → Option Logging :=
  logError widen text errnoMsg p [.cString (some (formatted message))]

/-- `LOG_FATALF(…)`. -/
def logFatalF (p : Place) (message : Bytes) : Logging → Option Logging :=
  logFatal widen text errnoMsg p [.cString (some (formatted message))]

end Logging

/-- A use of one of the macros. -/
inductive Statement (F D : Type) where
  | logDebug (p : Place) (func : CString) (items : List (Item F D))
  | logInfo (p : Place) (items : List (Item F D))
  | logWarn (p : Place) (items : List (Item F D))
  | logError (p : Place) (items : List (Item F D))
  | logFatal (p : Place) (items : List (Item F D))
  | logDebugF (p : Place) (func : CString) (message : Bytes)
  | logInfoF (p : Place) (message : Bytes)
  | logWarnF (p : Place) (message : Bytes)
  | logErrorF (p : Place) (message : Bytes)
  | logFatalF (p : Place) (message : Bytes)

def Statement.run : Statement F D → Logging → Option Logging
  | logDebug p func items => Logging.logDebug widen text errnoMsg p func items
  | logInfo p items => Logging.logInfo widen text errnoMsg p items
  | logWarn p items => Logging.logWarn widen text errnoMsg p items
  | logError p items => Logging.logError widen text errnoMsg p items
  | logFatal p items => Logging.logFatal widen text errnoMsg p items
  | logDebugF p func message => Logging.logDebugF widen text errnoMsg p func message
  | logInfoF p message => Logging.logInfoF widen text errnoMsg p message
  | logWarnF p message => Logging.logWarnF widen text errnoMsg p message
  | logErrorF p message => Logging.logErrorF widen text errnoMsg p message
  | logFatalF p message => Logging.logFatalF widen text errnoMsg p message

namespace Logging

/-- What a program does with the logger. -/
inductive Act (F D : Type) where
  | setLevel (level : LogLevel)
  | statement (s : Statement F D)

/-- Nothing comes after an `abort`. -/
def step (g : Logging) (a : Act F D) : Option Logging :=
  if g.aborted then none
  else match a with
    | .setLevel level => some (g.setLevel level)
    | .statement s => s.run widen text errnoMsg g

end Logging

end Doubles

end Caimr.Log
