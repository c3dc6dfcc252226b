import PureSsh.Lib.Text

/-! The lines of the configuration files, and what can be wrong with one (`config/parser.rs`). -/

namespace PureSsh.Config
open Lib

/- A message, alone or in front of a value that is written as `{:?}`. -/
inductive Message where
  | text (msg : Text)
  | quoting (msg : String) (value : Bytes)
  deriving DecidableEq, Repr

inductive ConfigError where
  | syntaxError (line : Nat) (msg : String)
  | badValue (line : Nat) (keyword : Text) (msg : Message)
  | unsupported (line : Nat) (msg : Text)
  deriving DecidableEq, Repr

/- One line with something on it; lines are counted from 1. -/
structure ParsedLine where
  lineNo : Nat
  keyword : Text
  args : List Text
  rest : Text
  file : Option Text
  deriving DecidableEq, Repr

end PureSsh.Config
