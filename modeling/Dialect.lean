import Dialect.Frame.Packet
import Dialect.Frame.Stream
import Dialect.Main
import Dialect.Proofs.Frame.Accounting
import Dialect.Proofs.Frame.Agreement
import Dialect.Proofs.Frame.Chunks
import Dialect.Proofs.Frame.Corruption
import Dialect.Proofs.Frame.Cut
import Dialect.Proofs.Frame.Items
import Dialect.Proofs.Frame.Turn
import Dialect.Proofs.Markup.Exactness
import Dialect.Proofs.Payload.Contents
import Dialect.Proofs.Payload.RoundTrip
import Dialect.Proofs.Schema.Burst
import Dialect.Proofs.Schema.Definition
import Dialect.Proofs.Schema.Document
import Dialect.Proofs.Schema.LayoutBytes
import Dialect.Proofs.Schema.ShiftRegister
import Dialect.Proofs.Schema.WireOrder
import Dialect.Proofs.Schema.Verdict
import Dialect.Proofs.Markup.Place
import Dialect.Proofs.Schema.Removal
import Dialect.Proofs.Run.Selection
import Dialect.Proofs.Schema.Lines
import Dialect.Proofs.Files.Path
import Dialect.Proofs.Files.Tree
import Dialect.Proofs.Run.Progress
import Dialect.Proofs.Run.Rejection
import Dialect.Proofs.Files.Agreement
import Dialect.Proofs.Run.Sources
import Dialect.Proofs.Run.Deletion
import Dialect.Proofs.Run.Listings
import Dialect.Proofs.Run.Artifacts
import Dialect.Proofs.Run.Independence
import Dialect.Proofs.Run.Accounts
import Dialect.Proofs.Run.Interruption
import Dialect.Proofs.Run.Refusal
import Dialect.Proofs.Payload.Alignment
import Dialect.Proofs.Schema.Registration
import Dialect.Proofs.Payload.Refusal
import Dialect.Proofs.Files.Containment
import Dialect.Proofs.Run.Containment
import Dialect.Proofs.Text.Blank
import Dialect.Proofs.Text.Numeral
import Dialect.Proofs.Schema.ClassOrder
import Dialect.Proofs.Schema.TypeSpec
import Dialect.Proofs.Schema.Acceptance
import Dialect.Proofs.Schema.Numbering
import Dialect.Proofs.Schema.Isolation
import Dialect.Proofs.Payload.Lookup
import Dialect.Proofs.Payload.ByteOrder
import Dialect.Proofs.Frame.Truncation
import Dialect.Proofs.Markup.Entity
import Dialect.Proofs.Markup.Written
import Dialect.Proofs.Markup.Builder
import Dialect.Proofs.Markup.Flaw
import Dialect.Proofs.Markup.Lines
import Dialect.Proofs.Work.FanOut
import Dialect.Proofs.Text.Lines
import Dialect.Proofs.Text.Column
import Dialect.Proofs.Listing.Codes
import Dialect.Proofs.Listing.Dispatch
import Dialect.Proofs.Text.Utf8
import Dialect.Proofs.Payload.Text
import Dialect.Proofs.Schema.Descriptions
import Dialect.Proofs.Text.Words
import Dialect.Proofs.Listing.Descriptions
