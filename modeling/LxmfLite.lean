import LxmfLite.FieldMaps
import LxmfLite.Writer
import LxmfLite.Encoder
import LxmfLite.Wire
import LxmfLite.Payload
import LxmfLite.Framing
import LxmfLite.Build
import LxmfLite.Propagation
import LxmfLite.Decoding
import LxmfLite.Authentication
import LxmfLite.Packing
import LxmfLite.Signing
import LxmfLite.Inbound
import LxmfLite.Stamping
import LxmfLite.RoundTrip
import LxmfLite.Admission
import LxmfLite.Encryption
import LxmfLite.Handover
import LxmfLite.Outbound
import LxmfLite.Envelope
import LxmfLite.Stamp
import LxmfLite.Search
import LxmfLite.Schedule
import LxmfLite.Vectors
import LxmfLite.Contracts
import LxmfLite.Bounds
import LxmfLite.Pairing
import LxmfLite.FieldLookup
import LxmfLite.Audio
import LxmfLite.Grammar
import LxmfLite.Opportunistic
import LxmfLite.Validation
import LxmfLite.SchemaMaps
import LxmfLite.Publication
import LxmfLite.Replies
import LxmfLite.Atomicity
import LxmfLite.Totality
import LxmfLite.Truncation
import LxmfLite.ReplyDecoding
import LxmfLite.IntegerDecoders
import LxmfLite.Tickets
import LxmfLite.NodeAnnounces
import LxmfLite.DeliveryCosts
import LxmfLite.Uploads
import LxmfLite.Streaming
import LxmfLite.Fallback
import LxmfLite.CanonicalFields
import LxmfLite.Threshold
import LxmfLite.Rounding
import LxmfLite.ExactNumbers
import LxmfLite.Requests
import LxmfLite.ProofOfWork
import LxmfLite.Batches
import LxmfLite.Endorsement
import LxmfLite.Carriage
import LxmfLite.Resending
import LxmfLite.Packets
import LxmfLite.Delivery
import LxmfLite.Correspondence
import LxmfLite.Agreement
import LxmfLite.Malleability
import LxmfLite.Amortized
import LxmfLite.Traversal
import LxmfLite.Confinement
import LxmfLite.Robustness
import LxmfLite.Word
import LxmfLite.WordReader
import LxmfLite.WordSize
