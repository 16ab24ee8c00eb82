import EntitySchema.Config
import EntitySchema.Probe
import EntitySchema.Processor.Registry

/-!
# Compilers

What a compilation depends on besides the metadata: the storage that is asked about full-text indexes, the processors of field
types, and the constants.
-/
namespace EntitySchema

/-- mirrors src/entityforge/compiler/schema:43-64 (`SchemaCompiler.__init__`) -/
structure Compiler where
  probe : Probe := .never
  registry : Registry := {}
  config : Config := {}

instance : Inhabited Compiler := ⟨{}⟩

end EntitySchema
