import EntitySchema.Processor
import EntitySchema.Value.Access

/-!
# Registry of processors

Which processor stands for which field type. Processors that were registered take precedence over those that come with the
compiler.

* `Registry.lookup`: the processor of a field type.
* `Registry.fieldTypes`: all field types that have one, in order.

Results:
* `lookup_register`: what a look-up finds after a registration.
-/
namespace EntitySchema

/-- mirrors src/entityforge/compiler/processors:123-150 (`ProcessorRegistry`) -/
structure Registry where
  builtins : Members Key Processor := Processor.builtins
  custom : Members Key Processor := []

namespace Registry

/-- A registry with processors of its own, with or without those of the compiler.
mirrors src/entityforge/compiler/processors:126-138 (`ProcessorRegistry.__init__`) -/
def ofCustom (custom : Members Key Processor) (withBuiltins : Bool) : Registry :=
  { builtins := if withBuiltins then Processor.builtins else [], custom }

/-- The processor of a field type.
mirrors src/entityforge/compiler/processors:146-147 (`ProcessorRegistry.lookup`) -/
def lookup (r : Registry) (fieldType : Key) : Option Processor :=
  (r.custom.get? fieldType).or (r.builtins.get? fieldType)

/-- The processor of the type that a compiled field has. -/
def lookupType (r : Registry) (declared : Value) : Except Misuse (Option Processor) :=
  declared.key.map r.lookup

/-- Registers a processor for a field type, in place of the one that was there.
mirrors src/entityforge/compiler/processors:140-144 (`ProcessorRegistry.register`) -/
def register (r : Registry) (fieldType : Key) (p : Processor) : Registry :=
  { r with custom := r.custom.set fieldType p }

/-- The field types that have a processor, in order.
mirrors src/entityforge/compiler/processors:149-150 (`ProcessorRegistry.field_types`) -/
def fieldTypes (r : Registry) : Except Misuse (List Key) :=
  match Key.sorted? (r.builtins.keys ++ r.custom.keys.filter fun name => !r.builtins.contains name) with
  | some names => .ok names
  | none => .error .badOperand

theorem lookup_register (r : Registry) (fieldType : Key) (p : Processor) (other : Key) :
    (r.register fieldType p).lookup other = if fieldType == other then some p else r.lookup other := by
  by_cases h : (fieldType == other) = true <;> simp [lookup, register, Members.get?_set, h]

end Registry

instance : Inhabited Registry := ⟨{}⟩

end EntitySchema
