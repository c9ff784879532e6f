import CallRelay.Bytes
import CallRelay.Clock.Span
import CallRelay.Fault
import CallRelay.Text.Blank
import CallRelay.Text.Hex
import CallRelay.Text.Numeral
import CallRelay.Text.Utf8
import CallRelay.Wire.CodecFault
import CallRelay.Wire.Encoding
import CallRelay.Wire.ErrorCode
import CallRelay.Wire.Identity
import CallRelay.Wire.Identity.Text
import CallRelay.Wire.Kind
import CallRelay.Wire.Message
import CallRelay.Wire.Stream
import CallRelay.Config
import CallRelay.Error
import CallRelay.Log
import CallRelay.Net.Address
import CallRelay.Clock.Instant
import CallRelay.Inflow
import CallRelay.Outflow
import CallRelay.Reader
import CallRelay.Handler
import CallRelay.Host
import CallRelay.Sink
import CallRelay.Source
import CallRelay.Source.Clip
import CallRelay.Source.Feed
import CallRelay.Source.HostVoice
import CallRelay.Source.Script
import CallRelay.Source.Silence
import CallRelay.Session.Inbound
import CallRelay.Session.Outbound
import CallRelay.Session.State
import CallRelay.Session.Closing
import CallRelay.Session.Opening
import CallRelay.Session.Run
import CallRelay.Bridge
import CallRelay.Net.Connect
import CallRelay.Net.Endpoint
import CallRelay.Net.Network
import CallRelay.Uuid
import CallRelay.Uuid.Plain
import CallRelay.Wave.Samples
import CallRelay.Wave.Library
import CallRelay.Wave.Plain
import CallRelay.Wave.Recording
import CallRelay.Dial
import CallRelay.Main
import CallRelay.Server.Calls
import CallRelay.Server.Error
import CallRelay.Server.Registry
import CallRelay.Server.Serving
import CallRelay.Server.Service
import CallRelay.Server.Settings
import CallRelay.Proofs.Clock
import CallRelay.Proofs.Reassembly
import CallRelay.Proofs.Reassembly.Calls
import CallRelay.Proofs.Inbound
import CallRelay.Proofs.Dispatch
import CallRelay.Proofs.Session.Ending
import CallRelay.Proofs.Session.Inbound
import CallRelay.Proofs.Transfer
import CallRelay.Proofs.Turn
import CallRelay.Proofs.Outbound
import CallRelay.Proofs.Session.Wire
import CallRelay.Proofs.Session.Peers
import CallRelay.Proofs.Server.Steps
import CallRelay.Proofs.Wire.Inverse
import CallRelay.Proofs.Server.Entries
import CallRelay.Proofs.Server.Shutdown
import CallRelay.Proofs.Outbound.Schedule
import CallRelay.Proofs.Session.Pace
import CallRelay.Proofs.Session.Stopping
import CallRelay.Proofs.Wire.Blocking
import CallRelay.Proofs.Reassembly.Agreement
import CallRelay.Proofs.Reassembly.First
import CallRelay.Proofs.Session.Accepting
import CallRelay.Proofs.Outbound.Course
import CallRelay.Proofs.Playing
import CallRelay.Proofs.Session.Lifecycle
import CallRelay.Proofs.Session.Counters
import CallRelay.Proofs.Session.Cancelling
import CallRelay.Proofs.Session.Returning
import CallRelay.Proofs.Outbound.Cutting
import CallRelay.Proofs.Requests
import CallRelay.Proofs.Sources
import CallRelay.Proofs.Session.Directions
import CallRelay.Proofs.Session.Completion
import CallRelay.Proofs.Server.Presence
import CallRelay.Proofs.Outbound.Alike
import CallRelay.Proofs.Session.Draining
import CallRelay.Proofs.Session.Fragments
import CallRelay.Proofs.Samples
import CallRelay.Proofs.Session.Samples
import CallRelay.Proofs.Wire.Incomplete
import CallRelay.Proofs.Reassembly.Buffer
import CallRelay.Proofs.Session.Oversize
import CallRelay.Proofs.Splitting
import CallRelay.Proofs.Net.Spelling
import CallRelay.Proofs.Net.Candidates
import CallRelay.Proofs.Clips
import CallRelay.Proofs.Outbound.Standing
import CallRelay.Proofs.Session.LegDown
import CallRelay.Proofs.Wire.Encoding
import CallRelay.Proofs.Uuid
import CallRelay.Proofs.Uuid.Plain
import CallRelay.Proofs.Wire.Identity
import CallRelay.Proofs.Recorded
import CallRelay.Proofs.Session.Range
import CallRelay.Proofs.Server.Serving
