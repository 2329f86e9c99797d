import VncProxy.Lib.Verify
import VncProxy.Lib.Reach
import VncProxy.Lib.Threads
import VncProxy.Lib.EdgeTriggered
import VncProxy.Lib.Prog
import VncProxy.Lib.Relate
import VncProxy.Marshal.Chunk
import VncProxy.Marshal.Basic
import VncProxy.Marshal.Queue
import VncProxy.Marshal.Fifo
import VncProxy.Marshal.Transfer
import VncProxy.Marshal.Asserts
import VncProxy.Marshal.RoundTrip
import VncProxy.Polling.PollThread
import VncProxy.Proxy.World
import VncProxy.Proxy.Handlers
import VncProxy.Proxy.Machine
import VncProxy.Proxy.Sections
import VncProxy.Proxy.Flow
import VncProxy.Proxy.Frame
import VncProxy.Proxy.Relay
import VncProxy.Proxy.Born
import VncProxy.Proxy.Milestones
import VncProxy.Proxy.Ages
import VncProxy.Proxy.LifeCycle
import VncProxy.Proxy.LifeFacts
import VncProxy.Proxy.Teardown
import VncProxy.Proxy.Cleanup
import VncProxy.Proxy.Recycle
import VncProxy.Proxy.Orderly
import VncProxy.Proxy.Net
import VncProxy.Proxy.Cover
import VncProxy.Proxy.Play
import VncProxy.Proxy.Steady
import VncProxy.Proxy.Setup
import VncProxy.Proxy.Filed
import VncProxy.Proxy.Atomic
import VncProxy.Proxy.Prune
import VncProxy.Handshake.D3des
import VncProxy.Handshake.KeySchedule
import VncProxy.Handshake.Operator
import VncProxy.Handshake.View
import VncProxy.Handshake.Auth
import VncProxy.Handshake.Dialogue
import VncProxy.Handshake.Service
import VncProxy.Handshake.Sessions
import VncProxy.Handshake.Routing
import VncProxy.Handshake.Sockets
import VncProxy.Handshake.Splice
import VncProxy.Handshake.OwnRow
import VncProxy.Handshake.CleanupTurn
import VncProxy.Handshake.Tables
import VncProxy.Handshake.Bounds
import VncProxy.Handshake.Streams
import VncProxy.Handshake.Received
import VncProxy.Handshake.Truncation
import VncProxy.Handshake.Ledger
import VncProxy.Handshake.Settled
import VncProxy.Handshake.Refusal
import VncProxy.Handshake.Addresses
import VncProxy.Polling.Machine
import VncProxy.Polling.Registry
import VncProxy.Polling.Sides
import VncProxy.Polling.Interest
import VncProxy.Lib.Weight
import VncProxy.Polling.References
import VncProxy.Polling.Shutdown
import VncProxy.Polling.Reuse
import VncProxy.Utils.ThreadPool
import VncProxy.Utils.Jobs
import VncProxy.Marshal.Bookmark
