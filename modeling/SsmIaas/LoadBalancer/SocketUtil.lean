import SsmIaas.Lib.CString

/-!
# The messages of `SocketUtil.js`

Each function of `util/SocketUtil.js` opens a connection to port 5799 of
VMManager's host and, once connected, writes one message: the texts of its
arguments, every one followed by a space.  The connect callback calls
`toString ()` on every argument, so an argument that is `undefined` or `null`
makes it throw and nothing is written.

The two hosts of `select.js` (`android_Ip`, `another_Ip`) are the same address,
so there is one VMManager to talk to and the address is left out.
-/

namespace SsmIaas.LoadBalancer

open Lib

/-- A JavaScript value as `toString ()` sees it: the UTF-8 bytes of its text, or
`none` for `undefined` and `null`, where the call throws. -/
abbrev JsText := Option Bytes

/-- The message made of some fields, or `none` when building it throws. -/
def message : List JsText → Option Bytes
  | [] => some []
  | field :: rest => do
      let text ← field
      let tail ← message rest
      return text ++ space :: tail

def getSocketStart (command ostype index id ip connectType imagePort audioPort eventPort : JsText) :
    Option Bytes :=
  message [command, ostype, index, id, ip, connectType, imagePort, audioPort, eventPort]

def getSocketCreate (command ostype index id : JsText) : Option Bytes :=
  message [command, ostype, index, id]

def getSocketDelete (command ostype index id : JsText) : Option Bytes :=
  message [command, ostype, index, id]

def getSocketInstall
    (command ostype index id ip connectType imagePort audioPort eventPort : JsText) :
    Option Bytes :=
  message [command, ostype, index, id, ip, connectType, imagePort, audioPort, eventPort]

@[simp] theorem message_nil : message [] = some [] := rfl

@[simp] theorem message_some_cons (text : Bytes) (rest : List JsText) :
    message (some text :: rest) = (message rest).map fun tail => text ++ space :: tail := by
  cases h : message rest <;> simp [message, h]

end SsmIaas.LoadBalancer
