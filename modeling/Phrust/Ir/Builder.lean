import Phrust.Ir.Unit

/-!
# Adding to the constant pool

`IrBuilder::add_constant` and `IrBuilder::intern_constant`. Identifiers have 32 bits.
-/

namespace Phrust.Ir

def addConstant (constants : List IrConstant) (constant : IrConstant) : ConstId × List IrConstant :=
  (constants.length % 2 ^ 32, constants ++ [constant])

def internConstant (constants : List IrConstant) (constant : IrConstant) : ConstId × List IrConstant :=
  match constants.findIdx? (· == constant) with
  | some index => (index % 2 ^ 32, constants)
  | none => addConstant constants constant

end Phrust.Ir
