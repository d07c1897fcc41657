import PinBench.Config.Format
import PinBench.Main
import PinBench.Model.Observed
import PinBench.Model.WireTable
import PinBench.Proofs.Bench.Stages
import PinBench.Proofs.Serial.Loopback
import PinBench.Proofs.Model.SerialPart
import PinBench.Proofs.Bench.Mirror
import PinBench.Proofs.Bench.Echoes
import PinBench.Proofs.Serial.Script
import PinBench.Proofs.Serial.Sampling
import PinBench.Proofs.Bench.Delivery
import PinBench.Proofs.Jtag.Phases
import PinBench.Proofs.Jtag.Requests
import PinBench.Proofs.Net.OneClient
import PinBench.Proofs.Jtag.Clocking
import PinBench.Proofs.Jtag.Session
import PinBench.Proofs.Jtag.Serving
import PinBench.Proofs.Jtag.Stream
import PinBench.Proofs.Bench.Course
import PinBench.Proofs.Bench.Mapping
import PinBench.Proofs.Model.Logged
import PinBench.Proofs.Bench.Ending
import PinBench.Proofs.Gpio.Validation
import PinBench.Proofs.Gpio.Shares
import PinBench.Proofs.Pins.Keeping
import PinBench.Proofs.Bench.Inputs
import PinBench.Proofs.Wave.Reading
import PinBench.Proofs.Wave.Declared
import PinBench.Proofs.Wave.Replay
import PinBench.Proofs.Bench.Recording
import PinBench.Proofs.Model.TapPart
import PinBench.Proofs.Jtag.Direct
import PinBench.Proofs.Bench.Debugging
import PinBench.Proofs.Bench.Cadence
import PinBench.Proofs.Net.Clients
import PinBench.Proofs.Telemetry.Lines
import PinBench.Proofs.Telemetry.Calls
import PinBench.Proofs.Telemetry.Telling
import PinBench.Proofs.Telemetry.Framing
import PinBench.Proofs.Jtag.Turns
import PinBench.Proofs.Jtag.Leftover
import PinBench.Proofs.Jtag.Visits
import PinBench.Proofs.Jtag.Isolation
import PinBench.Proofs.Bench.Closing
import PinBench.Proofs.Pins.Ledger
import PinBench.Proofs.Pins.Binding
import PinBench.Proofs.Pins.Access
import PinBench.Proofs.Pins.Fields
import PinBench.Proofs.Bench.Sequencing
import PinBench.Proofs.Telemetry.Silence
import PinBench.Proofs.Bench.Observers
import PinBench.Proofs.Bench.Passive
import PinBench.Proofs.Telemetry.Publishing
import PinBench.Proofs.Bench.Relaying
import PinBench.Proofs.Jtag.Shifting
import PinBench.Proofs.Model.Scanning
import PinBench.Proofs.Serial.Decoding
import PinBench.Proofs.Serial.Waveform
import PinBench.Proofs.Serial.Drift
import PinBench.Proofs.Serial.Words
import PinBench.Proofs.Wave.Nesting
import PinBench.Proofs.Text.Utf8
import PinBench.Proofs.Json.Scanning
import PinBench.Proofs.Json.Reading
import PinBench.Proofs.Json.Numbers
import PinBench.Proofs.Json.Records
import PinBench.Proofs.Json.KeyOrder
import PinBench.Proofs.Json.Pruning
import PinBench.Proofs.Telemetry.Encoding
import PinBench.Proofs.Telemetry.Wire
import PinBench.Proofs.Jtag.Codec
import PinBench.Proofs.Text.Escaping
import PinBench.Proofs.Config.Folding
import PinBench.Proofs.Config.Omission
import PinBench.Proofs.CommandLine.Sorting
import PinBench.Proofs.Model.Registers
import PinBench.Proofs.Model.Settling
import PinBench.Proofs.Telemetry.Polling
import PinBench.Proofs.Bench.Counting
