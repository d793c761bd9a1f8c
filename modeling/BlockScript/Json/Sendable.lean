import BlockScript.Decimal.Binary

/-!
# Sendable values

A value can be sent when it can be written as JSON text: its numbers are finite, and its
strings stand for text.  A value that was read need not be, since the names of the infinities
and halves of surrogate pairs can be read.
-/

namespace BlockScript.Json

mutual

def isSendable : Json → Bool
  | .num n => n.binary?.isSome
  | .brokenStr => false
  | .arr items => areSendable items
  | .obj members => haveSendable members
  | _ => true

def areSendable : List Json → Bool
  | [] => true
  | item :: rest => isSendable item && areSendable rest

def haveSendable : List (String × Json) → Bool
  | [] => true
  | (_, value) :: rest => isSendable value && haveSendable rest

end

end BlockScript.Json
