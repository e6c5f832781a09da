import Dispatch.Deployment.Basic
import Dispatch.Job.Learning
import Dispatch.Job.Orchestrator
import Dispatch.Job.Stage
import Dispatch.Store.LedgerStore
import Dispatch.Proofs.Dict
import Dispatch.Proofs.Results
import Dispatch.Proofs.Number.Rounding
import Dispatch.Proofs.Number.Decimal
import Dispatch.Proofs.Number.Counting
import Dispatch.Proofs.Text.Utf8
import Dispatch.Proofs.Text.Units
import Dispatch.Proofs.Text.Blank
import Dispatch.Proofs.Json.Numbers
import Dispatch.Proofs.Json.Texts
import Dispatch.Proofs.Json.RoundTrip
import Dispatch.Proofs.Json.Plain
import Dispatch.Proofs.Json.Settled
import Dispatch.Proofs.Schema
import Dispatch.Proofs.Sorting
import Dispatch.Proofs.Path
import Dispatch.Proofs.FileTree
import Dispatch.Proofs.Containment
import Dispatch.Proofs.Config
import Dispatch.Proofs.Environment
import Dispatch.Proofs.Deployment
import Dispatch.Proofs.Job.Building
import Dispatch.Proofs.Job.Environments
import Dispatch.Proofs.Job.Preparation
import Dispatch.Proofs.Job.Settled
import Dispatch.Proofs.Job.Table
import Dispatch.Proofs.Job.RoundTrip
import Dispatch.Proofs.Store.World
import Dispatch.Proofs.Store.Ledger
import Dispatch.Proofs.Store.Records
import Dispatch.Proofs.Store.Versions
import Dispatch.Proofs.Store.LedgerStore
import Dispatch.Proofs.Store.Readability
import Dispatch.Proofs.Store.Numbering
import Dispatch.Proofs.Store.Searching
import Dispatch.Proofs.Store.Log
import Dispatch.Proofs.Store.Additions
import Dispatch.Proofs.Store.Saving
import Dispatch.Proofs.Store.FileNames
import Dispatch.Proofs.Store.Interference
import Dispatch.Proofs.Store.Sessions
import Dispatch.Proofs.Store.Confinement
import Dispatch.Proofs.Store.Interface
import Dispatch.Proofs.Deployment.Failures
import Dispatch.Proofs.Job.NormalForm
import Dispatch.Proofs.Deployment.Contents
import Dispatch.Proofs.Deployment.Artifacts
import Dispatch.Proofs.Deployment.Runs
import Dispatch.Proofs.Deployment.Directory
import Dispatch.Proofs.Deployment.Indexing
import Dispatch.Proofs.Store.Schedules
import Dispatch.Proofs.Store.Overlap
import Dispatch.Proofs.Deployment.Credentials
import Dispatch.Proofs.Job.Descriptions
import Dispatch.Proofs.Job.Commands
import Dispatch.Proofs.Template
import Dispatch.Proofs.Shell
import Dispatch.Proofs.Job.StageFlags
import Dispatch.Proofs.Job.Learning
import Dispatch.Proofs.Job.Manifests
import Dispatch.Proofs.Json.Compact
import Dispatch.Proofs.Text.Lines
import Dispatch.Proofs.Job.Summaries
import Dispatch.Proofs.Resources
import Dispatch.Proofs.Gregorian
import Dispatch.Proofs.Calendar
import Dispatch.Proofs.Text.Digits
import Dispatch.Proofs.Timestamps
import Dispatch.Proofs.Text.Units
