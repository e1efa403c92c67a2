import SyscallStream.Main
import SyscallStream.Encode.Buffer
import SyscallStream.Proofs.Reading
import SyscallStream.Proofs.Transition
import SyscallStream.Proofs.Run
import SyscallStream.Proofs.Assembly
import SyscallStream.Proofs.Acceptance
import SyscallStream.Proofs.RoundTrip
import SyscallStream.Proofs.Grouping
import SyscallStream.Proofs.DecodedVariables
import SyscallStream.Proofs.Grammar
import SyscallStream.Proofs.Laws
import SyscallStream.Proofs.Extension
import SyscallStream.Proofs.Spelling
import SyscallStream.Proofs.Unambiguous
import SyscallStream.Proofs.Canonical
import SyscallStream.Proofs.Lockstep
import SyscallStream.Proofs.Splicing
import SyscallStream.Proofs.Thresholds
import SyscallStream.Proofs.Rebinding
import SyscallStream.Proofs.Machine
import SyscallStream.Proofs.Safety
import SyscallStream.Proofs.Refusals
import SyscallStream.Proofs.EventLog
import SyscallStream.Proofs.EndOfStream
import SyscallStream.Proofs.Offsets
import SyscallStream.Proofs.Streaming
import SyscallStream.Proofs.Tables
import SyscallStream.Proofs.Legible
import SyscallStream.Proofs.JsonText
import SyscallStream.Proofs.ProgramJson
import SyscallStream.Proofs.Listing
import SyscallStream.Proofs.JsonFlag
import SyscallStream.Proofs.CommandLine
import SyscallStream.Proofs.Workload
import SyscallStream.Proofs.Unread
import SyscallStream.Proofs.JsonKeys
import SyscallStream.Proofs.JsonGrammar
import SyscallStream.Proofs.JsonReading
import SyscallStream.Proofs.CatalogText
import SyscallStream.Proofs.ReadHistory
import SyscallStream.Proofs.TableHistory
