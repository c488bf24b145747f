import Qizo.Boot.Delivery
import Qizo.Boot.HeaderChecks
import Qizo.Boot.Exhausted
import Qizo.Boot.Validated
import Qizo.Boot.Stage1Run
import Qizo.Boot.E820
import Qizo.Boot.A20
import Qizo.LzssFormat
import Qizo.LzssSearch
import Qizo.Image.FatRoundTrip
import Qizo.Image.IsoRoundTrip
import Qizo.Image.Plan
import Qizo.Image.FirstSector
import Qizo.Kernel.PmaUndo
import Qizo.Kernel.LineEditor
import Qizo.Kernel.History
import Qizo.Kernel.Sse2Fill
import Qizo.Kernel.Paging
import Qizo.Kernel.Completion
import Qizo.Kernel.ConsoleCuts
import Qizo.Kernel.Cpu
import Qizo.Kernel.FatEntry
import Qizo.Kernel.FatImage
import Qizo.Kernel.FatTrace
import Qizo.Kernel.AtaRange
import Qizo.Kernel.KbdQueue
import Qizo.Kernel.MouseQueue
import Qizo.Kernel.Recall
import Qizo.Kernel.Numeral
import Qizo.Kernel.PrintfReads
import Qizo.Kernel.Report
import Qizo.Artifacts.BootinfoLayout
import Qizo.Boot.SecondStage
import Qizo.Boot.Fault
import Qizo.Kernel.InterruptReturn
import Qizo.Kernel.Irq
import Qizo.Image.Accepted
import Qizo.Kernel.AnyKeys
