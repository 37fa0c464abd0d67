import PoundDreverHall.Dma.BurstProtocol
import PoundDreverHall.Rtl.BramController
import PoundDreverHall.Rtl.ReadOut
import PoundDreverHall.Dma.Copy
import PoundDreverHall.Dma.Lossless
import PoundDreverHall.Nco.Coherence
import PoundDreverHall.Rtl.Commands
import PoundDreverHall.Rtl.Fir
import PoundDreverHall.Rtl.PdhCore
import PoundDreverHall.Clocked.Signal
import PoundDreverHall.Clocked.Events
import PoundDreverHall.Decoder.CommandStream
import PoundDreverHall.Decoder.Refinement
import PoundDreverHall.Decoder.WriteSequence
import PoundDreverHall.Irq.Count
import PoundDreverHall.Reset.TwoHistories
import PoundDreverHall.Clocked.Cycle
import PoundDreverHall.Clocked.Splice
import PoundDreverHall.Frame.Control
import PoundDreverHall.Frame.Cycle
import PoundDreverHall.Frame.Exclusion
import PoundDreverHall.Frame.Commands
import PoundDreverHall.Frame.Freshness
import PoundDreverHall.Frame.Columns
import PoundDreverHall.Frame.OwnFrame
import PoundDreverHall.Device.BitField
import PoundDreverHall.Device.Program
import PoundDreverHall.Device.Triple
import PoundDreverHall.Server.Context
import PoundDreverHall.Server.Handlers
import PoundDreverHall.Server.Controls
import PoundDreverHall.Server.SweepRamp
import PoundDreverHall.Server.Text
import PoundDreverHall.Server.Dispatch
import PoundDreverHall.Requests.Words
import PoundDreverHall.Requests.Callback
import PoundDreverHall.Requests.Layouts
import PoundDreverHall.Requests.SweepRouting
import PoundDreverHall.Requests.PidSwitchOn
import PoundDreverHall.Requests.FirLoad
import PoundDreverHall.Requests.Behaviour
import PoundDreverHall.Requests.FrameTrace
import PoundDreverHall.Requests.OpenFiles
import PoundDreverHall.Requests.ReplyNames
import PoundDreverHall.Text.PyString
import PoundDreverHall.Text.Scan
import PoundDreverHall.Client.Api
import PoundDreverHall.Protocol.Reply
import PoundDreverHall.Protocol.Status
import PoundDreverHall.Protocol.Literals
import PoundDreverHall.Protocol.RoundTrip
import PoundDreverHall.Protocol.PartialReply
import PoundDreverHall.Protocol.PartialRequest
import PoundDreverHall.Protocol.Segments
import PoundDreverHall.Pid.Windup
import PoundDreverHall.Pid.Products
import PoundDreverHall.Pid.Integrator
import PoundDreverHall.Pid.Updates
import PoundDreverHall.Pid.Decimation
import PoundDreverHall.Pid.Reenable
import PoundDreverHall.SignalPath.PidError
import PoundDreverHall.System.Board
import PoundDreverHall.System.Interrupt
import PoundDreverHall.System.Execution
import PoundDreverHall.System.FrameCall
import PoundDreverHall.Clocked.Sampling
import PoundDreverHall.Frame.Spacing
import PoundDreverHall.FixedPoint.Tree
import PoundDreverHall.FixedPoint.Average
import PoundDreverHall.FixedPoint.Fold
import PoundDreverHall.SignalPath.Filter
import PoundDreverHall.SignalPath.Demodulator
import PoundDreverHall.SignalPath.LowPass
import PoundDreverHall.Nco.PhaseOffset
import PoundDreverHall.Requests.NcoSwitch
import PoundDreverHall.Requests.FilterRest
import PoundDreverHall.Requests.Served
import PoundDreverHall.Requests.FirEcho
import PoundDreverHall.Requests.FirInstall
import PoundDreverHall.Requests.FirReject
import PoundDreverHall.Requests.SweepDrive
import PoundDreverHall.Requests.PhaseShift
import PoundDreverHall.Requests.BoardRefinement
import PoundDreverHall.Device.EventLoop
import PoundDreverHall.Device.Interleave
import PoundDreverHall.Client.PersistentAutolock
import PoundDreverHall.Requests.Acknowledge
import PoundDreverHall.Requests.EarlyInterrupt
import PoundDreverHall.Requests.LockRegisters
import PoundDreverHall.Client.Autolock
import PoundDreverHall.Client.ConcurrentAutolock
import PoundDreverHall.Requests.Settings
import PoundDreverHall.Requests.Session
import PoundDreverHall.Requests.Answers
import PoundDreverHall.Device.Throughout
import PoundDreverHall.Requests.Underway
import PoundDreverHall.Requests.ClockPeriods
import PoundDreverHall.Requests.ReplyShape
import PoundDreverHall.Protocol.Calls
import PoundDreverHall.Clocked.Crossing
import PoundDreverHall.Clocked.Rounds
import PoundDreverHall.Frame.Workload
import PoundDreverHall.Frame.Pace
import PoundDreverHall.Frame.Completion
import PoundDreverHall.System.InterruptLine
import PoundDreverHall.System.OrderTaken
import PoundDreverHall.System.Delivery
import PoundDreverHall.System.FrameDeadline
