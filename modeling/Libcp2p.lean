import Libcp2p.Cbor.Data
import Libcp2p.Cbor.Encoder
import Libcp2p.Cbor.EncoderRuns
import Libcp2p.Cbor.Find
import Libcp2p.Cbor.Format
import Libcp2p.Cbor.Items
import Libcp2p.Cbor.Parser
import Libcp2p.Cbor.ParserSpec
import Libcp2p.Cbor.RoundTrip
import Libcp2p.Cbor.Validate
import Libcp2p.Cbor.Walk
import Libcp2p.Cid.Cast
import Libcp2p.Cid.Cid
import Libcp2p.Cid.Compare
import Libcp2p.Cid.DecodeSafety
import Libcp2p.Cid.HashText
import Libcp2p.Cid.Set
import Libcp2p.Cid.SetCalls
import Libcp2p.Cid.SetKeys
import Libcp2p.Cid.SetRuns
import Libcp2p.Crypto.Aes
import Libcp2p.Crypto.KeyCbor
import Libcp2p.Crypto.PeerId
import Libcp2p.Crypto.PeerIdDecode
import Libcp2p.Encoding.Base32
import Libcp2p.Encoding.Base32Decode
import Libcp2p.Encoding.Base32Truncation
import Libcp2p.Encoding.Multibase
import Libcp2p.Encoding.Multihash
import Libcp2p.Encoding.Rfc4648
import Libcp2p.Lib.BigEndian
import Libcp2p.Lib.BoundedMap
import Libcp2p.Lib.Buffer
import Libcp2p.Lib.CMemory
import Libcp2p.Lib.CString
import Libcp2p.Lib.Comparison
import Libcp2p.Lib.Heap
import Libcp2p.Lib.Hex
import Libcp2p.Lib.Monitor
import Libcp2p.Lib.Owned
import Libcp2p.Lib.Readers
import Libcp2p.Lib.Runs
import Libcp2p.Lib.Threads
import Libcp2p.Multiaddr.Accessors
import Libcp2p.Multiaddr.Agreement
import Libcp2p.Multiaddr.AnyText
import Libcp2p.Multiaddr.Compare
import Libcp2p.Multiaddr.Components
import Libcp2p.Multiaddr.Decapsulate
import Libcp2p.Multiaddr.FromBytes
import Libcp2p.Multiaddr.HexArrays
import Libcp2p.Multiaddr.Ip4
import Libcp2p.Multiaddr.Ipv6
import Libcp2p.Multiaddr.Language
import Libcp2p.Multiaddr.Multiaddr
import Libcp2p.Multiaddr.ProtoUtils
import Libcp2p.Multiaddr.Reading
import Libcp2p.Multiaddr.RoundTrip
import Libcp2p.Multiaddr.UVarint
import Libcp2p.Multiaddr.VarHex
import Libcp2p.Network.Framing
import Libcp2p.Network.Hello
import Libcp2p.Network.HelloAnswers
import Libcp2p.Network.HelloNetwork
import Libcp2p.Network.MessageFormat
import Libcp2p.Network.MessageRoundTrip
import Libcp2p.Network.MessageSafety
import Libcp2p.Network.Messages
import Libcp2p.Network.SocketServer
import Libcp2p.Peerstore.Atomic
import Libcp2p.Peerstore.Authentic
import Libcp2p.Peerstore.Race
import Libcp2p.Peerstore.Refinement
import Libcp2p.Peerstore.Store
import Libcp2p.Protobuf.Grammar
import Libcp2p.Protobuf.Message
import Libcp2p.Protobuf.Wire
import Libcp2p.ThreadPool.Counts
import Libcp2p.ThreadPool.Frees
import Libcp2p.ThreadPool.Jobs
import Libcp2p.ThreadPool.Pool
import Libcp2p.ThreadPool.Progress
import Libcp2p.ThreadPool.Queue
import Libcp2p.ThreadPool.Safety
import Libcp2p.ThreadPool.Wait
