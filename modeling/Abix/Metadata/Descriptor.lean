import Abix.Model.ABI

/-! The descriptors that a generated module hands to the runtime, and when they are well formed. -/
namespace Abix.Metadata
open Abix.Model

structure FieldDescriptor where
  typeId : TypeId
  offset : UInt32

structure TypeDescriptor where
  fields : Counted FieldDescriptor
  typeId : TypeId
  layoutHash : LayoutHash
  size : UInt32
  align : UInt32

structure ParameterDescriptor where
  typeId : TypeId

structure FunctionDescriptor where
  parameters : Counted ParameterDescriptor
  returnType : TypeId

structure SymbolDescriptor where
  kind : UInt32
  targetIndex : UInt32

/-- The three type arrays have the length that `type_count` says, where they are not null. -/
structure ModuleDescriptor where
  name : Option (List UInt8)
  version : Option (List UInt8)
  types : Counted TypeDescriptor
  canonicalTypes : Counted TypeDesc
  canonicalLayouts : Counted TypeLayout
  functions : Counted FunctionDescriptor
  symbols : Counted SymbolDescriptor
  canonicalTypes_count : canonicalTypes.count = types.count
  canonicalLayouts_count : canonicalLayouts.count = types.count

structure TypeRow where
  type : TypeDescriptor
  canonicalType : TypeDesc
  canonicalLayout : TypeLayout

def ModuleDescriptor.rows (module : ModuleDescriptor) : List TypeRow :=
  (module.types.items.zip (module.canonicalTypes.items.zip module.canonicalLayouts.items)).map fun r =>
    ⟨r.1, r.2.1, r.2.2⟩

def TypeRow.valid (row : TypeRow) : Bool :=
  row.type.typeId = row.canonicalType.id ∧ row.type.size = row.canonicalLayout.size ∧
    row.type.align = row.canonicalLayout.align ∧ row.type.layoutHash = row.canonicalLayout.layoutHash ∧
    row.type.typeId ≠ .zero ∧ row.type.size ≠ 0 ∧ row.type.align ≠ 0 ∧ row.type.fields.isDangling = false ∧
    ∀ field ∈ row.type.fields.items, field.typeId ≠ .zero ∧ field.offset ≤ row.type.size

def FunctionDescriptor.valid (function : FunctionDescriptor) : Bool :=
  function.returnType ≠ .zero ∧ function.parameters.isDangling = false

def valid (module : ModuleDescriptor) : Bool :=
  module.name.isSome ∧ module.version.isSome ∧ module.types.isDangling = false ∧
    module.canonicalTypes.isDangling = false ∧ module.canonicalLayouts.isDangling = false ∧
    module.functions.isDangling = false ∧ module.symbols.isDangling = false ∧
    (∀ row ∈ module.rows, row.valid) ∧ ∀ function ∈ module.functions.items, function.valid

end Abix.Metadata
