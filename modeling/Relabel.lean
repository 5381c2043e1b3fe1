import Relabel.Batch.Run
import Relabel.Bytes.Patch
import Relabel.ClassFile.Builder
import Relabel.Proofs.Naming.ReservedNames
import Relabel.Proofs.Renaming.Linking
import Relabel.Proofs.Edit.Onward
import Relabel.Proofs.Pool.Expand
import Relabel.Proofs.Edit.Expand
import Relabel.Proofs.Renaming.Frame
import Relabel.Proofs.Pool.Written
import Relabel.Proofs.ClassFile.Written
import Relabel.Proofs.Renaming.Stored
import Relabel.Proofs.Layout.Piece
import Relabel.Proofs.Layout.Slot
import Relabel.Proofs.Layout.Format
import Relabel.Proofs.Layout.Value
import Relabel.Proofs.Layout.Walk
import Relabel.Proofs.Layout.Attribute
import Relabel.Proofs.Layout.Rename
import Relabel.Proofs.Descriptor
import Relabel.Proofs.Signature.Legible
import Relabel.Proofs.Signature.Parse
import Relabel.Proofs.Renaming.Final
import Relabel.Proofs.Edit.Quiet
import Relabel.Proofs.Layout.Rest
import Relabel.Proofs.Renaming.Settled
import Relabel.Proofs.Renaming.Again
import Relabel.Proofs.Naming.Stored
import Relabel.Proofs.Naming.FinalNames
import Relabel.Proofs.Renaming.Dangling
import Relabel.Proofs.ClassFile.Built
import Relabel.Proofs.Renaming.Changed
import Relabel.Proofs.Naming.KeptNames
import Relabel.Proofs.Bytes.Extent
import Relabel.Proofs.ClassFile.Extent
import Relabel.Proofs.Text.IllFormed
import Relabel.Proofs.Mapping.Ownership
import Relabel.Proofs.Naming.Listing
import Relabel.Proofs.Signature.Grammar
import Relabel.Proofs.Signature.Grammatical
import Relabel.Proofs.Signature.Derivation
import Relabel.Proofs.Signature.Erasure
import Relabel.Proofs.Signature.Image
import Relabel.Proofs.Signature.Kept
import Relabel.Proofs.Descriptor.Scan
import Relabel.Proofs.Mapping.Table
import Relabel.Proofs.Pool.Interning
import Relabel.Proofs.Pool.Reuse
import Relabel.Proofs.Pool.Stray
import Relabel.Proofs.Layout.Exact
import Relabel.Proofs.Layout.SimpleName
import Relabel.Proofs.Mapping.Agreement
import Relabel.Proofs.Mapping.Parts
import Relabel.Proofs.Batch.Run
import Relabel.Proofs.Naming.Host
import Relabel.Proofs.Bytes.Script
import Relabel.Proofs.Signature.Agreement
import Relabel.Proofs.Layout.Nesting
