import SneppxAlg.Npe.Compiler

/-!
# What the emitted programs compute
-/

namespace SneppxAlg.Npe

open Lib.RowMajor (rowMajor length_rowMajor)

variable {F : Type} {env : Env F} {mem : List F} {stepLimit : ℕ}

/-! ## The two-layer perceptron -/

section Mlp

variable [Semiring F] [LinearOrder F] {batch dim hiddenDim : ℕ}

variable (hex : env.Exact) (hdim : 0 < dim) (hhidden : 0 < hiddenDim)
  (W₁ : Matrix (Fin dim) (Fin hiddenDim) F) (b₁ : Fin hiddenDim → F)
  (W₂ : Matrix (Fin hiddenDim) (Fin dim) F) (b₂ : Fin dim → F) (hmem : mem.length = 65536)
  (hheld : rowMajor W₁ ++ List.ofFn b₁ ++ rowMajor W₂ ++ List.ofFn b₂ <+: mem)
  (hroom : ∀ n ∈ [batch * dim, batch * hiddenDim, dim * hiddenDim, hiddenDim * dim, hiddenDim,
    dim], Grants env n)

include hex hdim hhidden hmem hheld hroom

end Mlp

end SneppxAlg.Npe
