import Exchange.Framework.Filter
import Exchange.Framework.LinkedList
import Exchange.Framework.Table
import Exchange.Framework.Ring
import Exchange.Framework.PrefixCode
import Exchange.Framework.Record
import Exchange.Framework.Fairness
import Exchange.Impl.Types
import Exchange.Impl.Itch
import Exchange.Impl.Engine.OrderPool
import Exchange.Impl.Engine.Orderbook
import Exchange.Impl.Engine.Engine
import Exchange.Impl.Engine.Matching
import Exchange.Impl.RingBuffer
import Exchange.Impl.Wire
import Exchange.Impl.Ouch
import Exchange.Impl.OuchCodec
import Exchange.Impl.ItchCodec
import Exchange.Impl.Soup
import Exchange.Impl.Packet
import Exchange.Impl.TscClock
import Exchange.Impl.Server.Validation
import Exchange.Impl.Server.OrderEntry
import Exchange.Impl.Server.OuchResponder
import Exchange.Impl.Server.SessionLog
import Exchange.Impl.Server.Gateway
import Exchange.Impl.Server.Threads
import Exchange.Impl.Server.Outbound
import Exchange.Impl.Server.Inbound
import Exchange.Impl.Client.LoadGenerator
import Exchange.Impl.Client.OrderFactory
import Exchange.Impl.Client.EventLoop
import Exchange.Impl.System
import Exchange.Impl.Platform
import Exchange.Spec.Book
import Exchange.Spec.Events
import Exchange.Spec.Queue
import Exchange.Spec.Feed
import Exchange.Spec.Ledger
import Exchange.Spec.Fills
import Exchange.Spec.Session
import Exchange.Spec.Entry
import Exchange.Spec.Told
import Exchange.Spec.Tape
import Exchange.Spec.Interleaving
import Exchange.Spec.Wire
import Exchange.Spec.Packet
import Exchange.Spec.Multicast
import Exchange.Spec.Lifetime
import Exchange.Spec.Effect
import Exchange.Spec.Options
import Exchange.Spec.Client
import Exchange.Spec.Platform
import Exchange.Spec.Holdings
import Exchange.Proof.Book.Fills
import Exchange.Proof.Book.Invariant
import Exchange.Proof.Book.Feed
import Exchange.Proof.Book.Trace
import Exchange.Proof.Book.Ledger
import Exchange.Proof.Book.Fair
import Exchange.Proof.Book.Tape
import Exchange.Proof.Book.Effect
import Exchange.Proof.Book.Queue
import Exchange.Proof.Book.Mirror
import Exchange.Proof.Book.Width
import Exchange.Proof.Engine.Level
import Exchange.Proof.Engine.Ladder
import Exchange.Proof.Engine.Shape
import Exchange.Proof.Engine.Output
import Exchange.Proof.Engine.Refine
import Exchange.Proof.Engine.Process
import Exchange.Proof.Engine.Run
import Exchange.Proof.Engine.Written
import Exchange.Proof.Engine.Reached
import Exchange.Proof.Engine.Multicast
import Exchange.Proof.Engine.Effect
import Exchange.Proof.Engine.Replace
import Exchange.Proof.Engine.Queue
import Exchange.Proof.Engine.Matching
import Exchange.Proof.TscClock
import Exchange.Proof.Wire.Fields
import Exchange.Proof.Wire.Soup
import Exchange.Proof.Wire.Packet
import Exchange.Proof.Wire.Ouch
import Exchange.Proof.Wire.OuchFrames
import Exchange.Proof.Wire.Stream
import Exchange.Proof.Wire.Itch
import Exchange.Proof.RingBuffer
import Exchange.Proof.Server.Entry
import Exchange.Proof.Server.Options
import Exchange.Proof.Server.Identity
import Exchange.Proof.Server.Isolation
import Exchange.Proof.Server.Safety
import Exchange.Proof.Server.Responder
import Exchange.Proof.Server.Gateway
import Exchange.Proof.Server.Answered
import Exchange.Proof.Server.Sequence
import Exchange.Proof.Server.Story
import Exchange.Proof.Server.Threads
import Exchange.Proof.Server.Interleaving
import Exchange.Proof.Server.Progress
import Exchange.Proof.Server.Holdings
import Exchange.Proof.Server.SessionLog
import Exchange.Proof.Server.Outbound
import Exchange.Proof.Server.Acts
import Exchange.Proof.Server.Closing
import Exchange.Proof.Server.Dirty
import Exchange.Proof.Server.History
import Exchange.Proof.Server.Sessions
import Exchange.Proof.Server.Segments
import Exchange.Proof.Server.Lifetime
import Exchange.Proof.Server.Inbound
import Exchange.Proof.Client
import Exchange.Proof.Client.Packet
import Exchange.Proof.Client.Acts
import Exchange.Proof.Client.EventLoop
import Exchange.Proof.Client.Backoff
import Exchange.Proof.Client.Pipeline
import Exchange.Proof.Client.Books
import Exchange.Proof.Client.Pacing
import Exchange.Proof.Client.Reassembly
import Exchange.Proof.Client.Outgoing
import Exchange.Proof.System
import Exchange.Proof.Server.Appended
import Exchange.Proof.Server.Calls
import Exchange.Proof.Platform
import Exchange.Proof.Conversation
import Exchange.Proof.Intake
