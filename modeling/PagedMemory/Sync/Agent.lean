/-!
# Agents

The primitives of synchronisation are given by what one agent does to a shared word: in each
phase it makes one access, which happens at one moment, and goes on to another phase. Any number
of agents share the word and take their steps in any order.

* `Agent.settle`: an agent that is alone makes its accesses one after the other.
-/

namespace PagedMemory.Agent

variable {phase shared : Type}

/-- Lets one agent take up to `n` steps, but none once `atRest` holds of its phase. -/
def settle (step : phase → shared → phase × shared) (atRest : phase → Bool) :
    Nat → phase → shared → phase × shared
  | 0, p, s => (p, s)
  | n + 1, p, s =>
    if atRest p then (p, s) else settle step atRest n (step p s).1 (step p s).2

end PagedMemory.Agent
