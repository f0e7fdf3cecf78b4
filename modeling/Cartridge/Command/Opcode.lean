import Cartridge.Bytes
import Cartridge.Text.Numeral

/-!
# The opcodes of event scripts

Every byte is an opcode.  The table gives its mnemonic, its size with all arguments, and what its
arguments refer to where an edit of the script has to know.

* `ArgKind`        what the arguments refer to;
* `Opcode.table`   one row per opcode; `Opcode.info` is the row of an opcode;
* `Opcode.ofMnemonic?`   the opcode of a mnemonic in any case; `Op` and two digits name any opcode.
-/

namespace Cartridge

inductive ArgKind where
  | plain
  /-- the last argument is the distance of a jump forward -/
  | jumpForward
  /-- the last argument is the distance of a jump back -/
  | jumpBack
  /-- the first argument is the handle of an object: twice its number -/
  | objectRef
  /-- the first argument is an index into the string table -/
  | textbox
  /-- the three arguments are the address of the string table -/
  | stringIndex
  /-- inline data follows, whose length the fourth and fifth argument give -/
  | memCopy
  /-- the high half of the first argument gives the size -/
  | displayEffect
  deriving DecidableEq, Repr

namespace Opcode

/-- `size` counts the opcode itself; where the size depends on the arguments it is the least -/
structure Info where
  name : String
  size : Nat
  kind : ArgKind
  deriving DecidableEq, Repr

/-! ## the table -/

def plain (name : String) (size : Nat) : Info := ⟨name, size, .plain⟩

def forward (name : String) (size : Nat) : Info := ⟨name, size, .jumpForward⟩

/-- opcodes without a mnemonic of their own -/
def unknown : Info := ⟨"Unknown", 1, .plain⟩

def table : Array Info := #[
  -- 0x00
  plain "Return" 1, unknown, ⟨"CallObjFunc", 3, .objectRef⟩, ⟨"CallObjFuncSync", 3, .objectRef⟩,
  ⟨"CallObjFuncHalt", 3, .objectRef⟩, plain "CallPcFunc" 3, plain "CallPcFuncSync" 3,
  plain "CallPcFuncHalt" 3, plain "ObjectActivatable" 1, plain "ObjectDeactivatable" 1,
  ⟨"RemoveObject", 2, .objectRef⟩, ⟨"DisableProcessing", 2, .objectRef⟩,
  ⟨"EnableProcessing", 2, .objectRef⟩, plain "NpcMovementProps" 2, plain "NpcPositioning" 2,
  unknown,
  -- 0x10
  forward "JumpForward" 2, ⟨"JumpBack", 2, .jumpBack⟩, forward "IfLocalByte" 5,
  forward "IfLocalWord" 6, forward "IfMemVsMem" 5, forward "IfMemVsMemWord" 5,
  forward "IfMemByte" 5, plain "FaceUp" 1, forward "IfStoryline" 3, plain "LoadResultToLocal" 2,
  forward "IfResult" 3, plain "FaceDown" 1, plain "LoadResultFromLocal" 2, plain "FaceLeft" 1,
  plain "FaceRight" 1, plain "FaceObject" 2,
  -- 0x20
  plain "LoadPcCount" 2, plain "GetObjectCoords" 4, plain "GetPcCoords" 4,
  plain "GetObjectFacing" 3, plain "GetPcFacing" 3, plain "FacePc" 2, unknown,
  forward "IfObjectVisible" 3, forward "IfObjectInBattle" 3, plain "LoadEnemyByte" 2,
  plain "SetBit04" 1, plain "SetBit08" 1, plain "Unknown2C" 3, forward "IfNoButton" 2,
  plain "ColorMath" 6, plain "Unknown2F" 3,
  -- 0x30
  forward "IfDashPressed" 2, forward "IfConfirmPressed" 2, plain "SetBit10" 1,
  plain "ChangePalette" 2, forward "IfAPressed" 2, forward "IfBPressed" 2,
  forward "IfXPressed" 2, forward "IfYPressed" 2, forward "IfLPressed" 2, forward "IfRPressed" 2,
  unknown, forward "IfDashNew" 2, forward "IfConfirmNew" 2, unknown, unknown,
  forward "IfPcActive" 3,
  -- 0x40
  forward "IfPcRecruited" 3, forward "IfFlagSet" 3, unknown, unknown, plain "SetFlag" 2, unknown,
  unknown, plain "LimitAnimations" 2, plain "LoadMem24" 5, plain "LoadMem24Word" 5,
  plain "StoreByteMem24" 5, plain "StoreWordMem24" 6, plain "StoreLocalMem24" 5,
  plain "StoreLocalMem24Word" 5, ⟨"MemCopy", 6, .memCopy⟩, plain "AssignByteLocal" 3,
  -- 0x50
  plain "AssignWordLocal" 4, plain "CopyLocal" 3, plain "CopyLocalWord" 3, plain "MemToLocal" 4,
  plain "MemToLocalWord" 4, plain "GetGold" 2, plain "AssignByteMem" 4, plain "LoadPc0" 1,
  plain "StoreLocalToMem" 4, plain "StoreLocalToMemWord" 4, plain "AssignLocal" 3,
  plain "AddToLocal" 3, plain "LoadPc1" 1, plain "AddLocalToLocal" 3,
  plain "AddLocalToLocalWord" 3, plain "SubtractFromLocal" 3,
  -- 0x60
  plain "SubtractFromLocalWord" 4, plain "SubtractLocal" 3, plain "LoadPc2" 1, plain "SetBit" 3,
  plain "ResetBit" 3, plain "SetBitMem" 4, plain "ResetBitMem" 4, plain "MaskLocal" 3,
  plain "LoadPc3" 1, plain "OrLocal" 3, plain "LoadPc4" 1, plain "XorLocal" 3, plain "LoadPc5" 1,
  plain "LoadPc6" 1, unknown, plain "ShiftLocal" 3,
  -- 0x70
  unknown, plain "IncrementLocal" 2, plain "IncrementLocalWord" 2, plain "DecrementLocal" 2,
  unknown, plain "SetLocal" 2, plain "SetLocalWord" 2, plain "ResetLocal" 2, unknown, unknown,
  plain "JumpAnimation" 4, plain "JumpAnimationFull" 5, ⟨"ShowObject", 2, .objectRef⟩,
  ⟨"HideObject", 2, .objectRef⟩, plain "DrawInvisible" 1, plain "LoadRandom" 2,
  -- 0x80
  plain "LoadPc" 2, plain "LoadPcInParty" 2, plain "LoadNpc" 2, plain "LoadEnemy" 3,
  plain "SetSolidity" 2, unknown, unknown, plain "SetScriptTiming" 2,
  ⟨"DisplayEffect", 2, .displayEffect⟩, plain "SetSpeed" 2, plain "SetSpeedFromLocal" 2,
  plain "SetCoordinates" 3, plain "SetCoordinatesFromLocal" 3, plain "SetPixelCoordinates" 5,
  plain "SetSpritePriority" 2, plain "FollowAtDistance" 2,
  -- 0x90
  plain "DrawSelf" 1, plain "HideSelf" 1, plain "MoveAtAngle" 3, unknown, plain "FollowObject" 2,
  plain "FollowPc" 2, plain "MoveToCoords" 3, plain "MoveToLocalCoords" 3,
  plain "MoveTowardObject" 3, plain "MoveTowardPc" 3, plain "MoveToCoordsDistance" 4, unknown,
  plain "MoveAtAngleDistance" 3, plain "MoveAtAngleFromLocal" 3, plain "MoveToObject" 2,
  plain "MoveToPc" 2,
  -- 0xA0
  plain "MoveToCoordsAnimated" 3, plain "MoveToLocalAnimated" 3, unknown, unknown, unknown,
  unknown, plain "SetFacing" 2, plain "SetFacingFromLocal" 2, plain "FaceObjectHandle" 2,
  plain "FacePcHandle" 2, plain "PlayAnimationLoop" 2, plain "PlayAnimation" 2,
  plain "PlayStaticAnimation" 2, plain "Pause" 2, plain "ResetAnimation" 1,
  plain "WaitForInput" 1,
  -- 0xB0
  plain "WaitForInputLoop" 1, plain "Break" 1, plain "End" 1, plain "AnimationStand" 1,
  plain "AnimationWalk" 1, plain "LoopUntilFinished" 2, plain "LoopUntilStopped" 2,
  plain "LoopAnimation" 3, ⟨"StringIndex", 4, .stringIndex⟩, plain "Pause250" 1,
  plain "Pause500" 1, ⟨"Textbox", 2, .textbox⟩, plain "Pause1000" 1, plain "Pause2000" 1,
  unknown, unknown,
  -- 0xC0
  ⟨"DecisionBox", 3, .textbox⟩, ⟨"TextboxTop", 2, .textbox⟩, ⟨"TextboxBottom", 2, .textbox⟩,
  ⟨"DecisionBoxTop", 3, .textbox⟩, ⟨"DecisionBoxBottom", 3, .textbox⟩, unknown, unknown,
  plain "AddItemFromLocal" 2, plain "SpecialDialog" 2, forward "IfHasItem" 3, plain "AddItem" 2,
  plain "RemoveItem" 2, forward "IfHasGold" 4, plain "AddGold" 3, plain "RemoveGold" 3,
  forward "IfPcInParty" 3,
  -- 0xD0
  plain "AddPcToReserve" 2, plain "RemovePc" 2, forward "IfPcActiveAlt" 3,
  plain "AddPcToParty" 2, plain "MovePcToReserve" 2, plain "EquipItem" 3,
  plain "RemovePcFromParty" 2, plain "GetItemCount" 3, plain "StartBattle" 3,
  plain "MovePartyTo" 7, plain "PartyFollow" 1, unknown, plain "ChangeLocationInstant" 5,
  plain "ChangeLocationFade" 5, plain "ChangeLocationBlack" 5, plain "ChangeLocationWait" 5,
  -- 0xE0
  plain "ChangeLocation" 5, plain "ChangeLocationAlt" 5, plain "ChangeLocationFromLocal" 5,
  plain "Explore" 2, plain "CopyTiles" 8, plain "CopyTilesAlt" 8, plain "ScrollLayers" 7,
  plain "ScrollScreen" 3, plain "PlaySound" 2, unknown, plain "PlaySong" 2, plain "SetVolume" 3,
  plain "SoundCommand" 4, plain "WaitForSilence" 1, plain "WaitForSongEnd" 1, unknown,
  -- 0xF0
  plain "DarkenScreen" 2, plain "ColorAddition" 3, plain "FadeOut" 1, plain "WaitForBrighten" 1,
  plain "ShakeScreen" 2, unknown, unknown, unknown, plain "RestoreHpMp" 1, plain "RestoreHp" 1,
  plain "RestoreMp" 1, unknown, unknown, unknown, plain "GeometryShift" 18, plain "Mode7Scene" 2]

def info (opcode : UInt8) : Info := table.getD opcode.toNat unknown

/-! ## opcodes with a part to play -/

def ret : UInt8 := 0x00
def call : UInt8 := 0x02
def callSync : UInt8 := 0x03
def callHalt : UInt8 := 0x04
def removeObject : UInt8 := 0x0A
def jumpForward : UInt8 := 0x10
def jumpBack : UInt8 := 0x11
def memCopy : UInt8 := 0x4E
def showObject : UInt8 := 0x7C
def hideObject : UInt8 := 0x7D
def pause : UInt8 := 0xB1
def finish : UInt8 := 0xB2
def stringIndex : UInt8 := 0xB8
def textbox : UInt8 := 0xBB

/-! ## mnemonics -/

/-- equal but for the case of ASCII letters -/
def sameLetters (a b : List Char) : Bool := a.map Char.toLower == b.map Char.toLower

/-- the opcode that `Op` or `OP` and two hexadecimal digits spell -/
def ofNumber? : List Char → Option UInt8
  | ['O', p, a, b] =>
    if p = 'p' ∨ p = 'P' then
      (Text.readUnsigned 16 0xFF [a, b]).toOption.map UInt8.ofNat
    else none
  | _ => none

def ofName? (name : List Char) : Option UInt8 :=
  (table.toList.findIdx? fun row => row.name != unknown.name && sameLetters row.name.toList name).map
    UInt8.ofNat

def ofMnemonic? (name : List Char) : Option UInt8 := (ofNumber? name).or (ofName? name)

end Opcode

end Cartridge
