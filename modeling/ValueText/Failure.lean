import ValueText.Number.Error
import ValueText.Console.Settings
import ValueText.Console.Sink

/-!
# Failures

What external input can make go wrong, with the wording, the code and the advice that are
shown for it.  Requests outside a view are not among them (see `BoundsError`).
-/

namespace ValueText

/-- A failure that external input has caused. -/
inductive Failure where
  | number (e : NumberError)
  | setting (e : SettingError)
  | io (e : IoError)
  deriving DecidableEq, Repr

namespace Failure

def message : Failure → String
  | number e => e.message
  | setting e => e.message
  | io e => e.message

/-- The code of a failure, by which it can be looked up. -/
def code : Failure → String
  | number _ => "soul_parse_E0101"
  | setting _ => "soul_config_E0201"
  | io _ => "soul_io_E0301"

/-- Advice on how to avoid a failure, if there is any. -/
def help : Failure → Option String
  | number e => some e.help
  | setting e => some e.help
  | io _ => none

end Failure

end ValueText
