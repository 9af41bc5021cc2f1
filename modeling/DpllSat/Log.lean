/-! Log records: a level and a message. -/
namespace DpllSat

inductive LogLevel
  | warn | debug | trace
  deriving DecidableEq

def LogLevel.name : LogLevel → String
  | warn => "WARN"
  | debug => "DEBUG"
  | trace => "TRACE"

structure LogRecord where
  level : LogLevel
  message : String
  deriving DecidableEq

def LogRecord.line (r : LogRecord) : String := r.level.name ++ " " ++ r.message

end DpllSat
