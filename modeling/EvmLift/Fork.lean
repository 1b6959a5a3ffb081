/-!
# Forks of the machine

The instruction set grew over the forks of the network. An opcode records the fork
that introduced it, and forks are ordered by time.
-/

namespace EvmLift

/-- The forks that changed the instruction set or are named between such forks,
oldest first. -/
inductive Fork where
  | frontier | homestead | tangerineWhistle | spuriousDragon | byzantium | constantinople
  | istanbul | berlin | london | paris | shanghai | cancun
  deriving Repr, DecidableEq, Ord

namespace Fork

/-- Every fork, oldest first. -/
def all : List Fork :=
  [.frontier, .homestead, .tangerineWhistle, .spuriousDragon, .byzantium, .constantinople,
    .istanbul, .berlin, .london, .paris, .shanghai, .cancun]

end Fork

end EvmLift
