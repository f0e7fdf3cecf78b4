import Cartridge.Block.Token

/-!
# The longest match

At each position the encoder looks back for the longest run that the bytes to come repeat.  A run
may reach past the position itself, since a copy is made byte by byte.

* `commonRun`      how far two byte strings agree, counted up to a limit;
* `search`         the best of the distances `d, d - 1, …, 1`: the longest run, of equal runs the
                   one furthest back; a run that reaches the limit ends the search;
* `findMatch`      the best match at a position of the data, or nothing when no run has three bytes;
* `tokenize`       the commands of the data: the match where there is one, else a literal.
-/

namespace Cartridge.Block

def commonRun : Nat → Bytes → Bytes → Nat
  | n + 1, a :: as, b :: bs => if a = b then commonRun n as bs + 1 else 0
  | _, _, _ => 0

/-- `source` begins `d` bytes before `rest`; the best so far has the given distance and length -/
def search (limit : Nat) (rest : Bytes) : Nat → Bytes → Nat → Nat → Nat × Nat
  | 0, _, distance, length => (distance, length)
  | d + 1, source, distance, length =>
    let n := commonRun limit source rest
    if length < n then
      if n = limit then (d + 1, n) else search limit rest d source.tail (d + 1) n
    else search limit rest d source.tail distance length

/-- distance and length of the best match for `rest`, of which `source` begins `d` bytes before -/
def longestMatch (w : Window) (d : Nat) (source rest : Bytes) : Option (Nat × Nat) :=
  let best := search w.maxLength rest d source 0 (minMatch - 1)
  if best.2 < minMatch then none else some best

def findMatch (w : Window) (data : Bytes) (pos : Nat) : Option (Nat × Nat) :=
  let d := min pos w.maxDistance
  longestMatch w d (data.drop (pos - d)) (data.drop pos)

/-- the command for `rest`, which begins with `b` -/
def nextToken (w : Window) (d : Nat) (source rest : Bytes) (b : UInt8) : Token × Nat :=
  match longestMatch w d source rest with
  | some (distance, length) => (.copy distance length, length)
  | none => (.literal b, 1)

/-- `source` begins `d` bytes before `rest`; the commands so far are in `done`, last first -/
def tokenizeFrom (w : Window) (d : Nat) (source rest : Bytes) (done : List Token) : List Token :=
  match rest with
  | [] => done.reverse
  | b :: tail =>
    let (token, length) := nextToken w d source (b :: tail) b
    let behind := d + 1 + (length - 1)
    let d' := min behind w.maxDistance
    tokenizeFrom w d' (source.drop (behind - d')) (tail.drop (length - 1)) (token :: done)
termination_by rest.length
decreasing_by simp only [List.length_drop, List.length_cons]; omega

def tokenize (w : Window) (data : Bytes) : List Token := tokenizeFrom w 0 data data []

end Cartridge.Block
