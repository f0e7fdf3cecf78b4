import Cartridge.Block.Token

/-!
# Reading a block

A block is a 16-bit body length, the body, a control byte, and then addenda: as long as the low six
bits of the control byte are not zero they count the commands of the next packet, and the word
behind it says where, from the start of the block, the next control byte stands.

* `Stretch`         the packets between two control bytes: where they begin, how many commands the
                    first of them has, and their bytes (every later packet has eight commands);
* `addenda`         the stretches behind a control byte, and the fault that ends them, if any;
* `readTokens`      the commands of a stretch, and the fault that ends them, if any;
* `Contents`        the layout and all commands of a block, and the fault that ends them, if any;
* `decompress`      the output of a block: a fault of an earlier command comes before later faults;
* `blockLength`     the bytes that a block takes up, found by the control bytes alone.
-/

namespace Cartridge.Block

/-! ## stretches -/

structure Stretch where
  pos : Nat
  commands : Nat
  bytes : Bytes

/-- `rest` begins with the control byte at `pos`, in a block that begins at `start` -/
def addenda (start pos : Nat) (rest : Bytes) : List Stretch × Option BlockFault :=
  match rest with
  | [] => ([], some .missingControl)
  | control :: behind =>
    let count := control.toNat % 64
    if count = 0 then ([], none)
    else if 8 < count then ([], some (.commandCount count))
    else match behind with
      | lo :: hi :: body =>
        let first := pos + 3
        let stop := start + Bytes.value [lo, hi]
        if stop ≤ first then ([], some .addendumStalled)
        else
          let bytes := body.take (stop - first)
          if bytes.length < stop - first then ([], some .addendumPastEnd)
          else
            let (more, fault) := addenda start stop (body.drop (stop - first))
            (⟨first, count, bytes⟩ :: more, fault)
      | _ => ([], some .truncatedAddendum)
termination_by rest.length
decreasing_by simp only [List.length_drop, List.length_cons]; omega

/-! ## commands -/

/-- `left` commands of a packet are still to come, whose copies the bits of `header` mark -/
def readTokens (w : Window) :
    (pos header left : Nat) → Bytes → List Token → List Token × Option BlockFault
  | _, _, 0, [], done => (done.reverse, none)
  | pos, _, 0, header :: rest, done => readTokens w (pos + 1) header.toNat 8 rest done
  | pos, header, left + 1, bytes, done =>
    if header % 2 = 0 then
      match bytes with
      | b :: rest => readTokens w (pos + 1) (header / 2) left rest (.literal b :: done)
      | [] => (done.reverse, some (.literalOverrun pos))
    else
      match bytes with
      | lo :: hi :: rest =>
        let (distance, length) := w.unpack (Bytes.value [lo, hi])
        readTokens w (pos + 2) (header / 2) left rest (.copy distance length :: done)
      | _ => (done.reverse, some (.referenceOverrun pos))

def Stretch.tokens (w : Window) (s : Stretch) : List Token × Option BlockFault :=
  match s.bytes with
  | [] => ([], none)
  | header :: rest => readTokens w (s.pos + 1) header.toNat s.commands rest []

/-- the commands of the stretches up to the first fault; `last` is the fault behind them all -/
def allTokens (w : Window) (last : Option BlockFault) :
    List Stretch → List Token × Option BlockFault
  | [] => ([], last)
  | s :: more =>
    match s.tokens w with
    | (tokens, some fault) => (tokens, some fault)
    | (tokens, none) =>
      let (rest, fault) := allTokens w last more
      (tokens ++ rest, fault)

/-! ## blocks -/

structure Contents where
  window : Window
  tokens : List Token
  fault : Option BlockFault

/-- the block that `bytes` begins with; `start` is its position, for diagnostics -/
def contents (start : Nat) (bytes : Bytes) : Except BlockFault Contents :=
  match bytes with
  | lo :: hi :: behind =>
    let length := Bytes.value [lo, hi]
    match behind.drop length with
    | [] => .error .bodyPastEnd
    | control :: rest =>
      let w := Window.ofControl control
      let body : Stretch := ⟨start + 2, 8, behind.take length⟩
      let (more, last) := addenda start (start + 2 + length) (control :: rest)
      let (tokens, fault) := allTokens w last (body :: more)
      .ok ⟨w, tokens, fault⟩
  | _ => .error .truncatedHeader

def output (start : Nat) (bytes : Bytes) : Except BlockFault Bytes := do
  let block ← contents start bytes
  let out ← expand #[] block.tokens
  match block.fault with
  | some fault => .error fault
  | none => return out.toList

def decompress (bytes : Bytes) (start : Nat) : Except Error Bytes :=
  (output start (bytes.drop start)).mapError (.block start)

/-! ## lengths -/

/-- `rest` begins with the control byte `pos` bytes behind the start of the block -/
def lengthFrom (pos : Nat) (rest : Bytes) : Except BlockFault Nat :=
  match rest with
  | [] => .error .missingControl
  | control :: behind =>
    if control.toNat % 64 = 0 then .ok (pos + 1)
    else match behind with
      | lo :: hi :: body =>
        let stop := Bytes.value [lo, hi]
        if stop ≤ pos + 3 then .error .addendumStalled
        else lengthFrom stop (body.drop (stop - (pos + 3)))
      | _ => .error .truncatedAddendum
termination_by rest.length
decreasing_by simp only [List.length_drop, List.length_cons]; omega

def blockLength (bytes : Bytes) (start : Nat) : Except Error Nat :=
  match bytes.drop start with
  | lo :: hi :: behind =>
    let length := Bytes.value [lo, hi]
    (lengthFrom (2 + length) (behind.drop length)).mapError (.block start)
  | _ => .error (.block start .truncatedHeader)

end Cartridge.Block
