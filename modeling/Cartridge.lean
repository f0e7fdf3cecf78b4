import Cartridge.Layout.Printer
import Cartridge.Main
import Cartridge.Script.Object
import Cartridge.Session.WriteBack
import Cartridge.Proofs.Assembly.Letters
import Cartridge.Proofs.Assembly.Lines
import Cartridge.Proofs.Block.Longest
import Cartridge.Proofs.Block.Measure
import Cartridge.Proofs.Block.RoundTrip
import Cartridge.Proofs.Block.Size
import Cartridge.Proofs.FreeMap.Complete
import Cartridge.Proofs.FreeMap.FirstFit
import Cartridge.Proofs.FreeMap.History
import Cartridge.Proofs.FreeMap.Packing
import Cartridge.Proofs.Layout.RoundTrip
import Cartridge.Proofs.Regions
import Cartridge.Proofs.Script.Inverse
import Cartridge.Proofs.Script.Iteration
import Cartridge.Proofs.Script.Order
import Cartridge.Proofs.Script.Patch
import Cartridge.Proofs.Script.Readdress
import Cartridge.Proofs.Script.Refusal
import Cartridge.Proofs.Script.Representation
import Cartridge.Proofs.Script.Shown
import Cartridge.Proofs.Script.Tracked
import Cartridge.Proofs.Script.Withdrawal
import Cartridge.Proofs.Session.Accounts
import Cartridge.Proofs.Session.Atomic
import Cartridge.Proofs.Session.Interleave
import Cartridge.Proofs.Session.Live
import Cartridge.Proofs.Session.Neighbours
import Cartridge.Proofs.Session.Refit
import Cartridge.Proofs.Session.Reload
import Cartridge.Proofs.StringTable.RoundTrip
import Cartridge.Proofs.Text.Numeral
import Cartridge.Proofs.Writes
