import Collate.Arguments
import Collate.Channel.Queue
import Collate.Config
import Collate.Console
import Collate.Dictionary
import Collate.Double
import Collate.Files
import Collate.Intake
import Collate.Json.Reader
import Collate.Json.Text
import Collate.Log.Clock
import Collate.Main
import Collate.Message.Draft
import Collate.Message.Identity
import Collate.Proofs.Aggregates
import Collate.Proofs.Agreement
import Collate.Proofs.Alone
import Collate.Proofs.Arrival
import Collate.Proofs.Conservation
import Collate.Proofs.Correlated
import Collate.Proofs.Documents
import Collate.Proofs.Expiry
import Collate.Proofs.Guards
import Collate.Proofs.Hearings
import Collate.Proofs.Interference
import Collate.Proofs.Layers
import Collate.Proofs.Lines
import Collate.Proofs.Multimaps
import Collate.Proofs.Once
import Collate.Proofs.Queues
import Collate.Proofs.Quiescence
import Collate.Proofs.Reading
import Collate.Proofs.Reaping
import Collate.Proofs.Records
import Collate.Proofs.Refusals
import Collate.Proofs.Resting
import Collate.Proofs.Serializability
import Collate.Proofs.Setbacks
import Collate.Proofs.Sizes
import Collate.Proofs.Spelling
import Collate.Proofs.Stopping
import Collate.Proofs.Tape
import Collate.Proofs.Visits
import Collate.Reaper
import Collate.Record
import Collate.Report
import Collate.Session
import Collate.Settings
import Collate.Shutdown
import Collate.Strategy.Correlation
import Collate.Strategy.Processor
import Collate.Strategy.Release
import Collate.Toml.Document
import Collate.Usage
import Collate.Work.Machine
import Collate.Proofs.Grammar
import Collate.Proofs.Entries
