import Typings.Constant
import Typings.Json.Container

/-!
Reading a constant from JSON. Any value is read in full first, whatever its shape; then truth
values, numbers and strings are constants, and null, lists and objects are not.
-/

namespace Typings.Constant

open Typings.Json

/-- A whole number is signed when it fits and unsigned beyond; every other number is a double. -/
def ofNumber : Number → Constant
  | .integer value =>
    if value ≤ Int64.maxValue.toInt then .int (Int64.ofInt value) else .uint (UInt64.ofNat value.toNat)
  | .float value => .float value

/-- Reads any value, and the constant it is, if it is one. Values inside brackets are read as given,
or not at all when no bracket may be opened any more. -/
def readWith (inside : Option (Reader (Option Constant))) : Reader (Option Constant) :=
  .atValue
    (fun c rest =>
      if c = 'n' then literal none ['u', 'l', 'l'] rest
      else if c = 't' then literal (some (.bool true)) ['r', 'u', 'e'] rest
      else if c = 'f' then literal (some (.bool false)) ['a', 'l', 's', 'e'] rest
      else if c = '"' then
        Reader.onValue (fun s => .ok (some (.string (String.ofList s)))) (stringBody rest)
      else if startsNumber c then
        Reader.onValue (fun n => .ok (some (ofNumber n))) (number (c :: rest))
      else if c = Bracket.list.opening then
        match inside with
        | none => .error .tooDeep
        | some item => Reader.onValue (fun _ => .ok none) (elements item true rest)
      else if c = Bracket.object.opening then
        match inside with
        | none => .error .tooDeep
        | some item => Reader.onValue (fun _ => .ok none) (members item true rest)
      else .error .noValue)
    (by
      intro c cs rest a h
      split at h
      · exact length_literal h
      · split at h
        · exact length_literal h
        · split at h
          · exact length_literal h
          · split at h
            · obtain ⟨s, hs, -⟩ := Reader.onValue_eq_ok h
              exact Nat.le_of_lt (length_stringBody hs)
            · split at h
              · obtain ⟨n, hn, -⟩ := Reader.onValue_eq_ok h
                exact Nat.le_of_lt_succ (length_number hn)
              · split at h
                · split at h
                  · cases h
                  · obtain ⟨as, has, -⟩ := Reader.onValue_eq_ok h
                    exact Nat.le_of_lt (length_elements has)
                · split at h
                  · split at h
                    · cases h
                    · obtain ⟨as, has, -⟩ := Reader.onValue_eq_ok h
                      exact Nat.le_of_lt (length_members has)
                  · cases h)

/-- Reads any value with the given number of levels, and the constant it is, if it is one. -/
def readAny : (levels : Nat) → Reader (Option Constant)
  | 0 => readWith none
  | levels + 1 => readWith (some (readAny levels))

def read (levels : Nat) : Reader Constant :=
  (readAny levels).tryMap fun
    | some constant => .ok constant
    | none => .error .notConstant

def ofJson (text : String) : Except Fault Constant := Reader.document read text

end Typings.Constant
