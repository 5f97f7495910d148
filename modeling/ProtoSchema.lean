import ProtoSchema.Proofs.Braces
import ProtoSchema.Proofs.CommentBodies
import ProtoSchema.Proofs.CommentText
import ProtoSchema.Proofs.Concatenation
import ProtoSchema.Proofs.Conformity
import ProtoSchema.Proofs.Described
import ProtoSchema.Proofs.Display
import ProtoSchema.Proofs.FirstWords
import ProtoSchema.Proofs.Layout
import ProtoSchema.Proofs.Magnitudes
import ProtoSchema.Proofs.Munch
import ProtoSchema.Proofs.Numerals
import ProtoSchema.Proofs.Ordering
import ProtoSchema.Proofs.Progress
import ProtoSchema.Proofs.Quoting
import ProtoSchema.Proofs.Reading
import ProtoSchema.Proofs.Recovery
import ProtoSchema.Proofs.RoundTrip
import ProtoSchema.Proofs.Sameness
import ProtoSchema.Proofs.Terminated
import ProtoSchema.Schema.Parsed
