import EntitySchema.Json.Reader
import EntitySchema.Probe.Server
import EntitySchema.Schema.Compile
import EntitySchema.Config
import EntitySchema.Probe
import EntitySchema.Processor.Registry
import EntitySchema.Proofs.Schema.Defaults
import EntitySchema.Proofs.Schema.FullText
import EntitySchema.Proofs.Schema.Isolation
import EntitySchema.Proofs.Silence
import EntitySchema.Proofs.Schema.Skipping
import EntitySchema.Proofs.Field.NormalForm
import EntitySchema.Proofs.Schema.Independence
import EntitySchema.Proofs.Schema.NormalForm
import EntitySchema.Proofs.Record.Accepted
import EntitySchema.Proofs.Link.Accepted
import EntitySchema.Proofs.Schema.Validity
import EntitySchema.Proofs.Schema.Ordering
import EntitySchema.Proofs.Link.BothSides
import EntitySchema.Proofs.Entity.JoinColumn
import EntitySchema.Proofs.Schema.Session
import EntitySchema.Proofs.Entity.Relations
import EntitySchema.Proofs.Value.Reordered
import EntitySchema.Proofs.Link.Agreement
import EntitySchema.Proofs.Record.Reordered
import EntitySchema.Proofs.Schema.EntityOrder
import EntitySchema.Proofs.Index.Derived
import EntitySchema.Proofs.Naming
import EntitySchema.Proofs.Field.Settled
import EntitySchema.Proofs.Entity.Settled
import EntitySchema.Proofs.Schema.FieldIndexes
import EntitySchema.Proofs.Index.Flags
import EntitySchema.Proofs.Entity.Indexes
import EntitySchema.Proofs.Schema.UniqueColumns
import EntitySchema.Proofs.Record.Rereading
import EntitySchema.Proofs.Entity.Mandatory
import EntitySchema.Proofs.Schema.MandatoryFields
import EntitySchema.Proofs.Tree.Assoc
import EntitySchema.Proofs.Tree.Places
import EntitySchema.Proofs.Tree.Regroup
import EntitySchema.Proofs.Entity.ManyLinks
import EntitySchema.Proofs.Field.Precedence
import EntitySchema.Proofs.Tree.Removal
import EntitySchema.Proofs.Index.Fragment
import EntitySchema.Proofs.Index.KeyLength
import EntitySchema.Proofs.Index.Resynthesis
import EntitySchema.Proofs.Index.NewField
import EntitySchema.Proofs.Index.CamelCase
import EntitySchema.Proofs.FullText
import EntitySchema.Proofs.Entity.SkippedLink
import EntitySchema.Proofs.Entity.ShownColumns
import EntitySchema.Proofs.Schema.SharedJunctions
