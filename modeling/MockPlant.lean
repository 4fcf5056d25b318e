import MockPlant.Contract
import MockPlant.Struct
import MockPlant.Codec
import MockPlant.Machine
import MockPlant.ModbusServer
import MockPlant.Plc
import MockPlant.Shipped
import MockPlant.Runs
import MockPlant.ScanCommands
import MockPlant.ScanSafety
import MockPlant.SpeedLimit
import MockPlant.Handshake
import MockPlant.Mailbox
import MockPlant.Masters
import MockPlant.Attribution
import MockPlant.ExactlyOnce
import MockPlant.Contention
import MockPlant.GatewayServer
import MockPlant.Recovery
import MockPlant.Restart
import MockPlant.Publications
import MockPlant.Deliveries
import MockPlant.StaleValues
import MockPlant.Validation
import MockPlant.RegisterMap
import MockPlant.InputRegisters
import MockPlant.ModbusLink
import MockPlant.MidScan
import MockPlant.ClientValues
import MockPlant.ScaledValues
import MockPlant.WireLayout
import MockPlant.CncCycle
import MockPlant.MethodCalls
import MockPlant.ConveyorRamp
import MockPlant.Motion
import MockPlant.Controller
import MockPlant.Changes
import MockPlant.StateTransitions
import MockPlant.CommandEffects
import MockPlant.Loops
import MockPlant.ScanLoop
import MockPlant.Projections
import MockPlant.WholePlant
import MockPlant.Provenance
import MockPlant.PollRounds
import MockPlant.EndToEnd
import MockPlant.WritePath
import MockPlant.CommandResults
import MockPlant.Sessions
import MockPlant.AddressSpace
import MockPlant.Resolution
import MockPlant.AckWait
import MockPlant.PollLoop
import MockPlant.ClientCalls
import MockPlant.UserView
import MockPlant.GatewayRun
import MockPlant.ServedCycle
