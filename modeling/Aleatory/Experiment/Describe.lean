import Aleatory.Experiment

/-!
# The text of an experiment

What an experiment does cannot be seen without running it; its text says only what type of value
it draws.
-/

namespace Aleatory

class Named (α : Type) where
  name : String

instance : Named UInt64 := ⟨"u64"⟩
instance : Named Float := ⟨"f64"⟩
instance : Named Bool := ⟨"bool"⟩
instance : Named Unit := ⟨"()"⟩

def Experiment.describe {F : Mode} {σ χ α : Type} [Named α] (_ : Experiment F σ χ α) : String :=
  "RandomVariable \x7b value: \"" ++ Named.name α ++ "\", .. \x7d"

end Aleatory
