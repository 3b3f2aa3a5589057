import Icflow.Static.ElfMap
import Icflow.Static.CloneCall
import Icflow.Static.Flatten
import Icflow.Static.ListReading
import Icflow.Collect.Instrumented
import Icflow.Collect.Provenance
import Icflow.Collect.Useful
import Icflow.Collect.Separation
import Icflow.Compare.Agreement
import Icflow.Compare.Exactness
import Icflow.Compare.Pipeline
import Icflow.Compare.SameResults
import Icflow.Generate.AllOrNothing
import Icflow.Generate.Balance
import Icflow.Generate.Confidential
import Icflow.Generate.Conforming
import Icflow.Generate.Containment
import Icflow.Generate.Decoders
import Icflow.Generate.Enumeration
import Icflow.Generate.MetadataFiles
import Icflow.Generate.NoOverwrite
import Icflow.Generate.Recorded
import Icflow.Generate.Requests
import Icflow.Generate.Visible
import Icflow.Generate.Wire
import Icflow.Wrap.Interruption
import Icflow.Wrap.Proxy
import Icflow.PinTool.BothFiles
import Icflow.PinTool.Classification
import Icflow.PinTool.Exclusion
import Icflow.PinTool.LostUpdate
import Icflow.PinTool.Pairs
import Icflow.Listing.Pagination
import Icflow.Listing.CollectArch
