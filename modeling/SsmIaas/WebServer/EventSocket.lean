import SsmIaas.Lib.CString

/-!
# Input events on their way to QEMU

The pages send every mouse, touch and key event as one WebSocket message, numbers in
decimal with a space between them.  Mouse and touch messages end in a space too, key
messages do not.  The relay of `bin/www` adds a newline and writes the message to the
TCP connection of the worker's QEMU.
-/

namespace SsmIaas.WebServer

open Lib

/-- The last field of a mouse or touch message. -/
inductive Button
  | up
  | left
  | right
  deriving DecidableEq, Repr

def Button.state : Button → ℕ
  | .up => 0
  | .left => 1
  | .right => 4

/-- What a page sends: `keydown`, `keyup`, and the handlers of mouse and touch, with the
coordinates they have computed. -/
inductive InputEvent
  | mouse (x y : Int32) (button : Button)
  | key (down : Bool) (code : ℕ)
  deriving DecidableEq, Repr

/-- The argument of `Event_client.send ()`. -/
def InputEvent.data : InputEvent → Bytes
  | .mouse x y button =>
      decimal 0 ++ [space] ++ signedDecimal x.toInt ++ [space] ++ signedDecimal y.toInt ++
        [space] ++ decimal button.state ++ [space]
  | .key down code =>
      decimal 1 ++ [space] ++ decimal (if down then 1 else 0) ++ [space] ++ decimal code

def newline : UInt8 := 10

/-- The handler of `EventSocketServer`: `NET_SOCKET_TARGET.write (data + '\n')`. -/
def relay (data : Bytes) : Bytes := data ++ [newline]

def InputEvent.message (event : InputEvent) : Bytes := relay event.data

end SsmIaas.WebServer
