import NewtonSolver.Mat

/-! Random vectors from a key, by the twenty round threefry block function on pairs of words: signs, and
numbers of the unit interval about zero. -/
namespace NewtonSolver.Random

/-- A pair of words: a key, a counter or a block of output. -/
structure Block where
  first : UInt32
  second : UInt32
  deriving DecidableEq

namespace Block

def rotate (x r : UInt32) : UInt32 := x <<< r ||| x >>> (32 - r)

def mix (b : Block) (r : UInt32) : Block :=
  let sum := b.first + b.second
  ⟨sum, rotate b.second r ^^^ sum⟩

def add (a b : Block) : Block := ⟨a.first + b.first, a.second + b.second⟩

/-- The rotations of one group of four rounds. -/
def rotations (group : Nat) : List UInt32 :=
  if group % 2 = 0 then [13, 15, 26, 6] else [17, 29, 16, 24]

end Block

/-- The word of the key schedule that the key's two words imply. -/
def parity (key : Block) : UInt32 := key.first ^^^ key.second ^^^ 0x1BD11BDA

/-- What is added after a group of rounds: the schedule in rotation, and the number of the group. -/
def injection (key : Block) (group : Nat) : Block :=
  let schedule (i : Nat) : UInt32 :=
    if i % 3 = 0 then key.first else if i % 3 = 1 then key.second else parity key
  ⟨schedule (group + 1), schedule (group + 2) + UInt32.ofNat (group + 1)⟩

/-- The output block of a counter under a key. -/
def threefry (key counter : Block) : Block :=
  (List.range 5).foldl
    (fun b group => ((Block.rotations group).foldl Block.mix b).add (injection key group))
    (counter.add key)

/-- The key of a seed. -/
def seeded (seed : Nat) : Block := ⟨0, UInt32.ofNat seed⟩

/-- The `i`th block that a key gives, as a subkey or as random words. -/
def Block.draw (key : Block) (i : Nat) : Block := threefry key ⟨0, UInt32.ofNat i⟩

/-- The first `count` subkeys of a key. -/
def Block.split (key : Block) (count : Nat) : List Block := (List.range count).map key.draw

variable {R : Type} [Scalar R] {n : Nat}

/-- One if the top bit of the draw is clear, minus one if it is set. -/
def Block.toSign (b : Block) : R := if b.first < 0x80000000 then 1 else -1

/-- The top 52 bits as a fraction, shifted to lie between minus a half and a half. -/
def Block.toFraction (b : Block) : R :=
  ((((b.first.toNat <<< 32) + b.second.toNat) >>> 12 : Nat) : R) / ((Nat.pow 2 52 : Nat) : R) -
    Scalar.half

def signs (key : Block) : Vec R n := Vector.ofFn fun i => (key.draw i).toSign

def fractions (key : Block) : Vec R n := Vector.ofFn fun i => (key.draw i).toFraction

end NewtonSolver.Random
