import Mathlib

/-!
The names that the daemon accepts for namespaces and streams.
-/

namespace LogDb.Daemon

def isNameChar (c : Char) : Bool :=
  ('a' ≤ c && c ≤ 'z') || ('0' ≤ c && c ≤ '9') || c == '_' || c == '-'

def validateName (name : String) (minLen maxLen : ℕ) (allowSlash : Bool) : Except String Unit := do
  let len := name.utf8ByteSize
  let chars := name.toList
  if len < minLen ∨ maxLen < len then
    throw s!"name '{name}' length {len} not in [{minLen}, {maxLen}]"
  if chars.head? = some '_' then
    throw s!"name '{name}' must not start with '_'"
  if allowSlash then
    if chars.head? = some '/' then
      throw s!"stream name '{name}' must not start with '/'"
    if chars.getLast? = some '/' then
      throw s!"stream name '{name}' must not end with '/'"
    if ['/', '/'] <:+: chars then
      throw s!"stream name '{name}' must not contain '//'"
    match chars.find? fun c => !isNameChar c && c != '/' with
    | some ch => throw s!"stream name '{name}' contains invalid character '{ch}'"
    | none => return ()
  else
    match chars.find? fun c => !isNameChar c with
    | some ch => throw s!"name '{name}' contains invalid character '{ch}'"
    | none => return ()

def validateNamespaceName (name : String) : Except String Unit :=
  validateName name 1 64 false

def validateStreamName (name : String) : Except String Unit :=
  validateName name 1 128 true

example : validateNamespaceName "orders-1" = .ok () := by decide

end LogDb.Daemon
