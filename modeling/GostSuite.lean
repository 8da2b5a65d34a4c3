import GostSuite.Algorithm
import GostSuite.Bytes.Basic
import GostSuite.Bytes.BigEndian
import GostSuite.Bytes.Pieces
import GostSuite.Cipher.Basic
import GostSuite.Cipher.Codebook
import GostSuite.Cipher.Kuznyechik
import GostSuite.Cipher.Meshing
import GostSuite.Cipher.Network
import GostSuite.Cipher.Substitution
import GostSuite.CounterStream
import GostSuite.Derivation.KeyTree
import GostSuite.Derivation.TlsTree
import GostSuite.Error
import GostSuite.Field
import GostSuite.Hash.Hmac
import GostSuite.Hash.Streebog
import GostSuite.Limits
import GostSuite.Mac.Chain
import GostSuite.Mac.MeshedOmac
import GostSuite.Mac.Omac
import GostSuite.Outcome
import GostSuite.Report
import GostSuite.Sealing.Mgm
import GostSuite.Sealing.MgmKey
import GostSuite.Sealing.SealedStream
import GostSuite.Tag
import GostSuite.Transport.ExportedKey
import GostSuite.Transport.ImitationMac
import GostSuite.Transport.Record
import GostSuite.Transport.WrappedKey
import GostSuite.Proofs.Bytes.Adding
import GostSuite.Proofs.Bytes.Counting
import GostSuite.Proofs.Bytes.Cutting
import GostSuite.Proofs.Bytes.Increment
import GostSuite.Proofs.Bytes.Masking
import GostSuite.Proofs.Bytes.Pieces
import GostSuite.Proofs.Calls
import GostSuite.Proofs.Cipher.Register
import GostSuite.Proofs.Cipher.Kuznyechik
import GostSuite.Proofs.Cipher.LinearLayer
import GostSuite.Proofs.Cipher.KeySchedule
import GostSuite.Proofs.Cipher.Network
import GostSuite.Proofs.Cipher.Permutation
import GostSuite.Proofs.CounterStream.Keystream
import GostSuite.Proofs.CounterStream.Session
import GostSuite.Proofs.Field.Blocks
import GostSuite.Proofs.Field.Irreducible
import GostSuite.Proofs.Field.Polynomial
import GostSuite.Proofs.Mac.Changed
import GostSuite.Proofs.Mac.Contexts
import GostSuite.Proofs.Mac.HeldBack
import GostSuite.Proofs.Mac.Meshed
import GostSuite.Proofs.Mac.Plain
import GostSuite.Proofs.Mac.Standard
import GostSuite.Proofs.Sealing.History
import GostSuite.Proofs.Sealing.Keyed
import GostSuite.Proofs.Sealing.Multilinear
import GostSuite.Proofs.Sealing.OneShot
import GostSuite.Proofs.Sealing.Order
import GostSuite.Proofs.Sealing.Reachable
import GostSuite.Proofs.Sealing.Session
import GostSuite.Proofs.Sealing.Tamper
import GostSuite.Proofs.Transport.ExportedKey
import GostSuite.Proofs.Derivation.KeyTree
import GostSuite.Proofs.Derivation.RecordKeys
import GostSuite.Proofs.Transport.WrappedKey
import GostSuite.Proofs.Sealing.SealedStream
import GostSuite.Proofs.Detection
import GostSuite.Proofs.Refusals
import GostSuite.Proofs.Restart
import GostSuite.Proofs.Mac.OneTag
import GostSuite.Proofs.Sealing.Mirror
import GostSuite.Proofs.Sealing.Trace
import GostSuite.Proofs.Sealing.Counters
import GostSuite.Proofs.Sealing.Encoding
import GostSuite.Proofs.Field.Product
import GostSuite.Proofs.KeyUsage
import GostSuite.Proofs.CounterStream.Usage
import GostSuite.Proofs.Mac.SectionUsage
import GostSuite.Proofs.Rekeying
import GostSuite.Proofs.Derivation.BlockMessages
import GostSuite.Proofs.Mac.OneBlock
import GostSuite.Proofs.CounterStream.Lookahead
import GostSuite.Proofs.SizedTags
import GostSuite.Proofs.TagSizes
import GostSuite.Proofs.Limits
import GostSuite.Proofs.Cipher.ByteOrder
import GostSuite.Proofs.Cipher.Standard
import GostSuite.Proofs.Transport.ImitationMac
