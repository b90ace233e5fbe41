import FieldBinding.Binder
import FieldBinding.Tag.Json
import FieldBinding.Graph.Equality
import FieldBinding.Proofs.Writing.ReadBack
import FieldBinding.Proofs.Writing.LastWrite
import FieldBinding.Proofs.Writing.Framing
import FieldBinding.Proofs.Writing.GroupRoundTrip
import FieldBinding.Proofs.Graph.Enriching
import FieldBinding.Proofs.Writing.Enriching
import FieldBinding.Proofs.Reading.Enriched
import FieldBinding.Proofs.Writing.Attempts
import FieldBinding.Proofs.Writing.Failing
import FieldBinding.Proofs.Graph.Mirroring
import FieldBinding.Proofs.Registry.Setters
import FieldBinding.Proofs.Writing.Mirroring
import FieldBinding.Proofs.Writing.Accounts
import FieldBinding.Proofs.Writing.Joints
import FieldBinding.Proofs.Writing.Planning
import FieldBinding.Proofs.Graph.Faces
import FieldBinding.Proofs.Writing.Realizing
import FieldBinding.Proofs.Writing.Reordering
import FieldBinding.Proofs.Path.Indexing
import FieldBinding.Proofs.Path.Faithful
import FieldBinding.Proofs.Writing.WellTyped
import FieldBinding.Proofs.Writing.Primitives
import FieldBinding.Proofs.Writing.Accessors
import FieldBinding.Proofs.Property
import FieldBinding.Proofs.Registry.Lineage
import FieldBinding.Proofs.Registry.Fresh
import FieldBinding.Proofs.Registry.Acceptance
import FieldBinding.Proofs.Calendar.DayNumber
import FieldBinding.Proofs.Conversion.Concerns
import FieldBinding.Proofs.Numeral.Padded
import FieldBinding.Proofs.Numeral.Rounding
import FieldBinding.Proofs.Numeral.Shortest
import FieldBinding.Proofs.Calendar.Written
import FieldBinding.Proofs.Conversion.Loss
import FieldBinding.Proofs.Path.Grammar
import FieldBinding.Proofs.Writing.Items
import FieldBinding.Proofs.Conversion.Decimal
import FieldBinding.Proofs.Reading.Branches
import FieldBinding.Proofs.Delimited.RoundTrip
import FieldBinding.Proofs.Delimited.Words
import FieldBinding.Proofs.Conversion.Millis
import FieldBinding.Proofs.Conversion.Texts
import FieldBinding.Proofs.Graph.Equality
import FieldBinding.Proofs.Path.Record
