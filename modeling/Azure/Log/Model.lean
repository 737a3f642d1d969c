import Azure.Log.Formatter

/-!
# Loggers and their configuration (`log.h`, `log.cpp`, `ConfigVar::setValue`)

Appenders are objects that loggers and callers share, so a `LogAppender::ptr` is a place in the heap of
appenders.  The formatters are counted, and the count is the address of the next one.
-/

namespace Azure

/-! ## Levels -/

inductive LogLevel where
  | unknown | debug | info | warn | error | fatal
  deriving DecidableEq, Repr

namespace LogLevel

def toString : LogLevel → String
  | debug => "DEBUG"
  | info => "INFO"
  | warn => "WARN"
  | error => "ERROR"
  | fatal => "FATAL"
  | unknown => "UNKNOWN"

def fromString (str : String) : LogLevel :=
  if str = "debug" then debug
  else if str = "info" then info
  else if str = "warn" then warn
  else if str = "error" then error
  else if str = "fatal" then fatal
  else if str = "DEBUG" then debug
  else if str = "INFO" then info
  else if str = "WARN" then warn
  else if str = "ERROR" then error
  else if str = "FATAL" then fatal
  else unknown

end LogLevel

/-! ## Appenders -/

inductive AppenderKind where
  | file (filename : String)
  | stdout
  deriving DecidableEq, Repr

structure LogAppender where
  kind : AppenderKind
  hasFormatter : Bool := false
  level : LogLevel := .debug
  formatter : Option LogFormatter := none
  deriving DecidableEq, Repr

/-- `LogAppender::setFormatter`; the flag says whether there is a formatter now. -/
def LogAppender.setFormatter (val : Option LogFormatter) (a : LogAppender) : LogAppender :=
  { a with formatter := val, hasFormatter := val.isSome }

structure LogHeap where
  appenders : List LogAppender := []
  /-- The address of the next formatter. -/
  formatters : Nat := 0

namespace LogHeap

def modify (heap : LogHeap) (a : Nat) (f : LogAppender → LogAppender) : LogHeap :=
  { heap with appenders := heap.appenders.modify a f }

/-- `new` of an appender; its address is the number of those before. -/
def push (heap : LogHeap) (a : LogAppender) : LogHeap :=
  { heap with appenders := heap.appenders ++ [a] }

def newFormatter (heap : LogHeap) (pattern : String) : LogFormatter × LogHeap :=
  (LogFormatter.new heap.formatters pattern, { heap with formatters := heap.formatters + 1 })

end LogHeap

/-! ## Loggers -/

structure Logger where
  name : String
  level : LogLevel := .debug
  appenders : List Nat := []
  formatter : Option LogFormatter

namespace Logger

def defaultPattern : String := "%d%T%t%T%N%T%F%T[%p]%T[%c]%T%f:%l%T%m%n"

def new (name : String) (heap : LogHeap) : Logger × LogHeap :=
  let (formatter, heap) := heap.newFormatter defaultPattern
  ({ name, formatter := some formatter }, heap)

/-- An appender without a formatter gets that of the logger; the flag stays as it is. -/
def adopt (formatter : Option LogFormatter) (a : LogAppender) : LogAppender :=
  if a.formatter.isNone then { a with formatter } else a

def addAppender (appender : Nat) (logger : Logger) (heap : LogHeap) : Logger × LogHeap :=
  ({ logger with appenders := logger.appenders ++ [appender] },
    heap.modify appender (adopt logger.formatter))

def delAppender (appender : Nat) (logger : Logger) : Logger :=
  { logger with appenders := logger.appenders.erase appender }

def clearAppender (logger : Logger) : Logger := { logger with appenders := [] }

def setLevel (level : LogLevel) (logger : Logger) : Logger := { logger with level }

def follow (val : Option LogFormatter) (a : LogAppender) : LogAppender :=
  if !a.hasFormatter then a.setFormatter val else a

def setFormatter (val : Option LogFormatter) (logger : Logger) (heap : LogHeap) :
    Logger × LogHeap :=
  ({ logger with formatter := val },
    logger.appenders.foldl (fun heap a => heap.modify a (follow val)) heap)

/-- `setFormatter(const std::string &)` -/
def setPattern (val : String) (logger : Logger) (heap : LogHeap) : Logger × LogHeap :=
  let (new_val, heap) := heap.newFormatter val
  if new_val.isError then (logger, heap) else logger.setFormatter (some new_val) heap

theorem setPattern_of_error {val : String} {heap : LogHeap} (logger : Logger)
    (h : (heap.newFormatter val).1.isError = true) :
    logger.setPattern val heap = (logger, (heap.newFormatter val).2) := if_pos h

theorem setPattern_of_valid {val : String} {heap : LogHeap} (logger : Logger)
    (h : (heap.newFormatter val).1.isError = false) :
    logger.setPattern val heap =
      logger.setFormatter (some (heap.newFormatter val).1) (heap.newFormatter val).2 :=
  if_neg fun htrue => Bool.false_ne_true (h.symm.trans htrue)

end Logger

/-! ## The configuration -/

structure LogAppenderDefine where
  type : Int := 0
  level : LogLevel := .unknown
  formatter : String := ""
  file : String := ""
  deriving DecidableEq, Repr

structure LogDefine where
  name : String
  level : LogLevel
  formatter : String := ""
  appenders : List LogAppenderDefine := []
  deriving DecidableEq, Repr

/-- `std::set<LogDefine>`, in the order of the names. -/
structure LogDefines where
  elems : List LogDefine
  sorted : elems.Pairwise fun a b => a.name < b.name
  deriving DecidableEq

namespace LogDefines

def empty : LogDefines := ⟨[], .nil⟩

def find (s : LogDefines) (i : LogDefine) : Option LogDefine :=
  s.elems.find? fun d => !decide (d.name < i.name) && !decide (i.name < d.name)

end LogDefines

structure LoggerManager where
  loggers : String → Option Logger
  heap : LogHeap

namespace LoggerManager

def store (m : LoggerManager) (logger : Logger) (heap : LogHeap) : LoggerManager where
  loggers name := if name = logger.name then some logger else m.loggers name
  heap := heap

/-- The constructor: a logger with the name `root` that writes to `std::cout`. -/
def new : LoggerManager :=
  let (root, heap) := Logger.new "root" {}
  let (root, heap) := root.addAppender heap.appenders.length (heap.push { kind := .stdout })
  store ⟨fun _ => none, {}⟩ root heap

def getLogger (name : String) (m : LoggerManager) : Logger × LoggerManager :=
  match m.loggers name with
  | some logger => (logger, m)
  | none =>
    let (logger, heap) := Logger.new name m.heap
    (logger, m.store logger heap)

def kindOf (a : LogAppenderDefine) : Option AppenderKind :=
  if a.type = 1 then some (.file a.file)
  else if a.type = 2 then some .stdout
  else none

def addDefined (s : Logger × LogHeap) (a : LogAppenderDefine) : Logger × LogHeap :=
  match kindOf a with
  | none => s
  | some kind =>
    let (logger, heap) := s
    let ap : LogAppender := { kind, level := a.level }
    let (ap, heap) :=
      if a.formatter ≠ "" then
        let (fmt, heap) := heap.newFormatter a.formatter
        (if !fmt.isError then ap.setFormatter (some fmt) else ap, heap)
      else (ap, heap)
    logger.addAppender heap.appenders.length (heap.push ap)

def configure (m : LoggerManager) (i : LogDefine) : LoggerManager :=
  let (logger, m) := m.getLogger i.name
  let logger := logger.setLevel i.level
  let (logger, heap) :=
    if i.formatter ≠ "" then logger.setPattern i.formatter m.heap else (logger, m.heap)
  let (logger, heap) := i.appenders.foldl addDefined (logger.clearAppender, heap)
  m.store logger heap

def retire (m : LoggerManager) (i : LogDefine) : LoggerManager :=
  let (logger, m) := m.getLogger i.name
  m.store (logger.setLevel .unknown).clearAppender m.heap

def listener (old_value new_value : LogDefines) (m : LoggerManager) : LoggerManager :=
  let m := new_value.elems.foldl
    (fun m i => if old_value.find i = some i then m else m.configure i) m
  old_value.elems.foldl (fun m i => if new_value.find i = none then m.retire i else m) m

end LoggerManager

/-- `g_log_defines` and the loggers. -/
structure LogConfig where
  val : LogDefines
  manager : LoggerManager

namespace LogConfig

def new : LogConfig := ⟨.empty, .new⟩

/-- `setValue`: the listener hears of a value only if it is another one. -/
def setValue (c : LogConfig) (v : LogDefines) : LogConfig :=
  if v = c.val then c else ⟨v, LoggerManager.listener c.val v c.manager⟩

end LogConfig

end Azure
