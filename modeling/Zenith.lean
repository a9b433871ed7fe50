import Zenith.Cbor.Grammar
import Zenith.Cbor.Floats
import Zenith.Cbor.Calls
import Zenith.Sim.Independence
import Zenith.Node.History
import Zenith.Rf.Frame
import Zenith.Bridge.Negative
import Zenith.Orbit.Parse
import Zenith.Orbit.Epoch
import Zenith.Orbit.Crossing
import Zenith.Orbit.Handoff
import Zenith.Bridge.Downlink
import Zenith.Rf.LinkBudget
import Zenith.Antenna.Report
import Zenith.Orbit.Altitude
import Zenith.Contactplan.Export
import Zenith.Antenna.Acquisition
