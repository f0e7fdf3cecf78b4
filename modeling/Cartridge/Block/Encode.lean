import Cartridge.Block.Match

/-!
# Writing a block

The commands go into packets of eight: a header byte with one bit per command, lowest bit first,
set for a copy; then the commands.  Whole packets form the body.  Fewer than eight commands left
over become an addendum behind the control byte.

* `header`, `packet`   the header byte of up to eight commands, and the packet they form;
* `wholePackets`       the body: packets of eight, as many as there are;
* `leftover`           the commands that fill no packet;
* `encode`             the block in one of the two layouts;
* `compress`           the shorter of the two blocks, the wide one when they are equally long.
-/

namespace Cartridge.Block

/-- the largest number that a 16-bit field holds -/
def maxField : Nat := 0xFFFF

def header : List Token → Nat
  | [] => 0
  | t :: ts => (if t.isCopy then 1 else 0) + 2 * header ts

def packet (w : Window) (ts : List Token) : Bytes :=
  UInt8.ofNat (header ts) :: ts.flatMap (Token.bytes w)

def wholePackets (w : Window) : List Token → Bytes
  | a :: b :: c :: d :: e :: f :: g :: h :: ts =>
    packet w [a, b, c, d, e, f, g, h] ++ wholePackets w ts
  | _ => []

def leftover : List Token → List Token
  | _ :: _ :: _ :: _ :: _ :: _ :: _ :: _ :: ts => leftover ts
  | ts => ts

def encode (w : Window) (data : Bytes) : Except Error Bytes :=
  let tokens := tokenize w data
  let body := wholePackets w tokens
  let rest := leftover tokens
  if maxField < body.length then
    .error (.argument (.bodyTooLong data.length body.length))
  else if rest.isEmpty then
    .ok (Bytes.field 2 body.length ++ body ++ [UInt8.ofNat w.mode])
  else
    let last := packet w rest
    -- the length field, the body, the control byte with its word, and the last packet
    let stop := 2 + body.length + 3 + last.length
    if maxField < stop then .error (.argument (.addendumOffset stop))
    else
      .ok (Bytes.field 2 body.length ++ body ++ UInt8.ofNat (w.mode + rest.length) ::
        (Bytes.field 2 stop ++ last ++ [UInt8.ofNat w.mode]))

def compress (data : Bytes) : Except Error Bytes := do
  let wide ← encode .wide data
  let narrow ← encode .narrow data
  return if narrow.length < wide.length then narrow else wide

end Cartridge.Block
